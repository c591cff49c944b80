import Storyworld.Id

namespace Storyworld

/-! The state of mind of an npc: one of a few built in, or one the author made up. -/

inductive BuiltinMood where
  | normal
  | happy
  | bored
  | tired
  | sad
  | mad
deriving DecidableEq, Repr

inductive Mood where
  | builtin (mood : BuiltinMood)
  | custom (name : Id .mood)
deriving DecidableEq, Repr

namespace BuiltinMood

def all : List BuiltinMood :=
  [normal, happy, bored, tired, sad, mad]

/-- How a source spells the mood. -/
def word : BuiltinMood → String
  | normal => "normal"
  | happy => "happy"
  | bored => "bored"
  | tired => "tired"
  | sad => "sad"
  | mad => "mad"

def words : List String :=
  all.map word

def ofWord? (w : String) : Option BuiltinMood :=
  all.find? (·.word = w)

end BuiltinMood

end Storyworld
