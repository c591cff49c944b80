import Storyworld.Token

namespace Storyworld.Token

/-! The reserved words. Being reserved matters only where the grammar asks for that very word; a
reserved word still serves as an id. -/

/-- The reserved words. One of them is a phrase of two words. -/
def keywords : List String :=
  ["let", "set", "room", "item", "npc", "trigger", "spinner", "goal",
    "name", "desc", "description", "visited", "exit", "required_items", "required_flags", "barred",
    "hidden", "locked", "overlay", "if", "flag", "unset", "complete", "present", "absent", "here",
    "text", "player", "has", "missing", "in", "state", "custom",
    "portable", "restricted", "location", "inventory", "chest", "container", "nowhere", "ability",
    "requires", "to", "consumable", "uses_left", "consume_on", "when_consumed", "despawn",
    "replace", "current", "open", "closed", "transparentClosed", "transparentLocked", "off",
    "movement", "route", "random", "rooms", "timing", "active", "loop", "dialogue", "normal",
    "happy", "bored", "tired", "sad", "mad",
    "only once", "note", "when", "always", "enter", "leave", "take", "drop", "unlock", "look",
    "at", "talk", "use", "on", "interaction", "act", "give", "from", "insert", "into", "eat",
    "drink", "inhale", "do",
    "any", "all", "progress", "with", "chance", "ambient",
    "show", "add", "remove", "reset", "advance", "seq", "limit", "wedge", "width", "spawn",
    "award", "points", "reason", "lock", "reveal", "direction", "push", "says", "refuse", "deny",
    "read", "restrict", "message", "modify", "schedule", "onFalse", "cancel", "retryNextTurn",
    "retryAfter",
    "group", "required", "optional", "status-effect", "start", "done", "fail", "reached"]

/-- Whether a word is reserved. -/
def isReserved (word : String) : Bool :=
  keywords.contains word

end Storyworld.Token
