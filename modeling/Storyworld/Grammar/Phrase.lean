import Storyworld.Grammar.Block

namespace Storyworld.Grammar

/-! Phrases that several constructs share. -/

def keywordThenString (rule : Rule) (word : String) : Parse Node :=
  node rule do
    keyword word
    return [.token (← string)]

def keywordThenNumber (rule : Rule) (word : String) : Parse Node :=
  node rule do
    keyword word
    return [.token (← number)]

def keywordThenBoolean (rule : Rule) (word : String) : Parse Node :=
  node rule do
    keyword word
    return [.token (← boolean)]

/-- A clause that may be left out, told by the word it begins with. -/
def optional (word : String) (clause : Parse Node) : Parse (List Element) := do
  if ← atKeyword word then return [.node (← clause)] else return []

/-- Either spelling of a description. -/
def description (rule : Rule) : Parse Node :=
  node rule do
    let _ ← oneOf ["desc", "description"]
    return [.token (← string)]

/-- Ids in parentheses. -/
def idList (what : String) : Parse Node :=
  node .idList do
    return (← parenthesized (word what)).map .token

/-- The state of an npc: a bare word, `custom NAME` or `custom(NAME)`. Where nothing follows that
could be the name, `custom` is a bare word itself. -/
def mood : Parse Node := do
  let named ← aheadIs 1 fun t => t.isWord || t.isMark .openParen
  if (← atKeyword "custom") && named then
    node .stateCustom do
      keyword "custom"
      if ← eatMark .openParen then
        let name ← word "state name"
        mark .closeParen
        return [name]
      else return [.token (← word "state name")]
  else
    node .stateWord do
      return [.token (← word "npc state")]

/-- An ability and perhaps, in parentheses, the item it is for. -/
def ability : Parse Node :=
  node .ability do
    keyword "ability"
    let name ← word "ability name"
    if ← eatMark .openParen then
      let target ← word "target item id"
      mark .closeParen
      return [name, target]
    else return [name]

/-- `container state WORD` -/
def containerState (rule : Rule) : Parse Node :=
  node rule do
    keyword "container"
    keyword "state"
    return [.token (← word "container state")]

end Storyworld.Grammar
