import Storyworld.Item
import Storyworld.Mood
import Storyworld.Shape.Reading

namespace Storyworld.Shape

/-! Words out of a closed set, and the nodes that several constructs share. -/

/-- The fault of a word outside its set. -/
def unknown (what : String) (expected : List String) (t : Token) : ShapeFault :=
  .unknownWord what t.text expected t.span

/-- The meaning of a word out of a closed set. -/
def meaning (what : String) (expected : List String) (ofWord? : String → Option α) (t : Token) :
    Except ShapeFault α :=
  match ofWord? t.text with
  | some a => .ok a
  | none => .error (unknown what expected t)

def containerState (t : Token) : Except ShapeFault ContainerState :=
  meaning "container state" ContainerState.words ContainerState.ofWord? t

/-- The state of an npc where a bare word has to be one of those built in. -/
def strictMood (n : Node) : Except ShapeFault Mood :=
  n.parts do
    let t ← token "npc state"
    if n.rule = .stateCustom then return .custom ⟨t.text⟩
    else return .builtin (← meaning "npc state" BuiltinMood.words BuiltinMood.ofWord? t)

/-- The state of an npc where a bare word not built in is one the author made up. -/
def lenientMood (n : Node) : Except ShapeFault Mood :=
  n.parts do
    let t ← token "npc state"
    if n.rule = .stateCustom then return .custom ⟨t.text⟩
    else
      match BuiltinMood.ofWord? t.text with
      | some mood => return .builtin mood
      | none => return .custom ⟨t.text⟩

def ability (n : Node) : Except ShapeFault Ability :=
  n.parts do
    let name ← id "ability name"
    let target ← token?
    return ⟨name, target.map fun t => ⟨t.text⟩⟩

end Storyworld.Shape
