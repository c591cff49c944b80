import Storyworld.Grammar.Phrase

namespace Storyworld.Grammar

/-! The grammar of spinners. -/

/-- `wedge TEXT`, perhaps with a width. -/
def wedge : Parse Node :=
  node .wedge do
    keyword "wedge"
    let text ← string
    if ← atKeyword "width" then
      let width ← keywordThenNumber .width "width"
      return [text, width]
    else return [text]

/-- A spinner; its id may also be quoted. -/
def spinner : Parse Node :=
  node .spinnerDef do
    keyword "spinner"
    let id ← wordOrString "spinner id"
    let wedges ← blockOf ["wedge"] wedge
    return .token id :: wedges.map .node

end Storyworld.Grammar
