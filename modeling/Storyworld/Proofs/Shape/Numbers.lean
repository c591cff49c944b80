import Mathlib.Algebra.Group.Int.Defs
import Storyworld.Proofs.Shape.Listing

namespace Storyworld

/-! The numbers of a definition. What is built without a fault holds each number of its construct
exactly as it is written, and none that is out of range. -/

/-- What a number is about. -/
inductive Measure where
  | chance
  | turns
  | retry
  | limit
  | width
  | uses
  | points
deriving DecidableEq, Repr

namespace Measure

/-- How a fault calls the number. -/
def what : Measure → String
  | chance => "chance percent"
  | turns => "schedule turns"
  | retry => "retry turns"
  | limit => "seq flag limit"
  | width => "wedge width"
  | uses => "uses_left"
  | points => "points"

def least : Measure → Int
  | chance | width | uses => 1
  | turns | retry | limit => 0
  | points => Int64.minValue.toInt

def greatest : Measure → Int
  | chance => 100
  | turns | retry | limit | width | uses => 2 ^ 32 - 1
  | points => Int64.maxValue.toInt

def Allows (m : Measure) (v : Int) : Prop :=
  m.least ≤ v ∧ v ≤ m.greatest

instance (m : Measure) (v : Int) : Decidable (m.Allows v) :=
  inferInstanceAs (Decidable (_ ∧ _))

end Measure

/-- A number of a definition. -/
structure Number where
  measure : Measure
  value : Int
deriving DecidableEq, Repr

/-- A number as a token of a source. -/
structure Numeral where
  measure : Measure
  token : Token
deriving DecidableEq, Repr

/-- A number is what its numeral says, and it is in range. -/
structure Number.SaidBy (a : Number) (b : Numeral) : Prop where
  measure : a.measure = b.measure
  value : Text.Integer.read? b.token.text.toList = some a.value
  allowed : a.measure.Allows a.value

/-! ## Numbers of what is built -/

def Listing.numbers : Listing Number where
  query
    | .chance percent => [⟨.chance, percent.toNat⟩]
    | _ => []
  group _ := []
  effect
    | .addSeqFlag _ limit => limit.toList.map fun u => ⟨.limit, u.toNat⟩
    | .addWedge _ _ width => width.toList.map fun u => ⟨.width, u.toNat⟩
    | .awardPoints amount _ => [⟨.points, amount.toInt⟩]
    | _ => []
  turns u := [⟨.turns, u.toNat⟩]
  retry
    | .retryAfter u => [⟨.retry, u.toNat⟩]
    | _ => []

def Consumable.numbers (c : Consumable) : List Number :=
  [⟨.uses, c.usesLeft.toNat⟩]

def Wedge.numbers (w : Wedge) : List Number :=
  w.width.toList.map fun u => ⟨.width, u.toNat⟩

/-- The numbers of a definition, in the order in which they are written. -/
def Definition.numbers : Definition → List Number
  | .item i => i.consumable.toList.flatMap Consumable.numbers
  | .trigger t => Statement.listIn .numbers t.block
  | .spinner s => s.wedges.flatMap Wedge.numbers
  | _ => []

/-! ## Numerals of a tree -/

namespace Rule

/-- What the number of a construct is about, if it has one. -/
def measure? : Rule → Option Measure
  | condChance => some .chance
  | actSchedule | actScheduleIf => some .turns
  | onFalseRetryAfter => some .retry
  | limit => some .limit
  | width => some .width
  | consumableUses => some .uses
  | actAwardPoints => some .points
  | _ => none

/-- Whether there may be numbers in a construct of this rule. -/
def leadsToNumbers (r : Rule) : Bool :=
  r.measure?.isSome || ([sourceFile, itemDef, triggerDef, spinnerDef, consumable, wedge, triggerBlock,
    doStmt, condBlock, condAny, condAll, actAddWedge, actAddSeqFlag].contains r)

/-- A construct has a number where there is a slot for one. -/
theorem isSome_measure_iff (r : Rule) : r.measure?.isSome ↔ .number ∈ r.slots.map Slot.part := by
  cases r <;> decide

theorem closed_not_leadsToNumbers : Closed fun r => !r.leadsToNumbers := by
  intro r
  cases r <;> decide

end Rule

namespace Node

/-- The number a construct has of its own, which is the last of its tokens. -/
def ownNumerals (n : Node) : List Numeral :=
  n.rule.measure?.toList.flatMap fun m => n.tokens.getLast?.toList.map (Numeral.mk m)

/-- The numbers of a tree, in the order in which they are written. -/
def numerals (n : Node) : List Numeral :=
  n.gather ownNumerals

variable {T : Token → Prop} {n : Node} {m : Measure} {t : Token} {front : List Token}

theorem ownNumerals_of_none (h : n.rule.measure? = none) : n.ownNumerals = [] := by
  rw [ownNumerals, h]
  rfl

theorem ownNumerals_of_last (h : n.rule.measure? = some m) (ht : n.tokens = front ++ [t]) :
    n.ownNumerals = [⟨m, t⟩] := by
  rw [ownNumerals, h, ht]
  simp

theorem measure_of_mem {b : Numeral} (h : b ∈ n.ownNumerals) : n.rule.measure? = some b.measure := by
  unfold ownNumerals at h
  cases hm : n.rule.measure? <;> cases ht : n.tokens.getLast? <;> simp_all

theorem ownNumerals_of_quiet (h : !n.rule.leadsToNumbers) : n.ownNumerals = [] := by
  apply ownNumerals_of_none
  cases hm : n.rule.measure? with
  | none => rfl
  | some m => simp [Rule.leadsToNumbers, hm] at h

theorem numerals_eq (n : Node) : n.numerals = n.ownNumerals ++ n.nodes.flatMap numerals :=
  gather_eq n

theorem mem_numerals {b : Numeral} :
    b ∈ n.numerals ↔ b ∈ n.ownNumerals ∨ ∃ k ∈ n.nodes, b ∈ k.numerals := by
  rw [numerals_eq, List.mem_append, List.mem_flatMap]

theorem numerals_of_quiet (hn : n.Every (fun k => k.isFilled) T) (hr : !n.rule.leadsToNumbers) :
    n.numerals = [] :=
  gather_eq_nil Rule.closed_not_leadsToNumbers (fun _ h => ownNumerals_of_quiet h) hn hr

theorem tokens_of_nodes {slots : List Slot} {cs : List Element} (h : fill slots cs)
    (hs : ∀ slot ∈ slots, ∃ rules, slot.part = .node rules) : Element.tokens cs = [] := by
  refine List.filterMap_eq_nil_iff.mpr fun c hc => ?_
  obtain ⟨slot, hslot, hfits⟩ := exists_fits h hc
  obtain ⟨rules, hpart⟩ := hs slot hslot
  cases c with
  | node k => rfl
  | token t => simp [hpart, Part.fits, Part.admits] at hfits

/-- Behind a number in a row there are constructs only. -/
theorem slots_of_measure (h : n.rule.measure? = some m) : ∃ front behind : List Slot,
    n.rule.slots = front ++ .one .number :: behind ∧
      (front = [] ∨ front = [.one (.choice ["in", "on"])]) ∧
      ∀ slot ∈ behind, ∃ rules, slot.part = .node rules := by
  revert h
  cases n.rule <;> intro h <;> first
    | cases h; done
    | exact ⟨[], _, rfl, .inl rfl, by simp [Slot.part]⟩
    | exact ⟨[_], _, rfl, .inr rfl, by simp [Slot.part]⟩

/-- The number of a construct stands where one is expected. -/
theorem admits_of_own (h : n.isFilled) {b : Numeral} (hb : b ∈ n.ownNumerals) :
    Part.number.admits b.token := by
  have hm := measure_of_mem hb
  obtain ⟨front, behind, hslots, hfront, hbehind⟩ := slots_of_measure hm
  have hown {cs : List Element} (hrow : fill (.one .number :: behind) cs) :
      ∃ t, Element.tokens cs = [t] ∧ Part.number.admits t := by
    obtain ⟨t, rest, rfl, ht, -, hrest⟩ :=
      RowOf.token (P := fun _ => True) ⟨hrow, fun _ _ => trivial⟩ fun _ => rfl
    have hnone := tokens_of_nodes hrest.1 hbehind
    exact ⟨t, congrArg (t :: ·) hnone, ht⟩
  have hlast (ts : List Token) {t : Token} (htokens : n.tokens = ts ++ [t])
      (ht : Part.number.admits t) : Part.number.admits b.token := by
    rw [ownNumerals_of_last hm htokens, List.mem_singleton] at hb
    rwa [hb]
  rw [isFilled, hslots] at h
  rcases hfront with rfl | rfl
  · obtain ⟨t, htokens, ht⟩ := hown h
    exact hlast [] htokens ht
  · obtain ⟨u, rest, hcs, -, -, hrest⟩ :=
      RowOf.token (P := fun _ => True) ⟨h, fun _ _ => trivial⟩ fun _ => rfl
    obtain ⟨t, htokens, ht⟩ := hown hrest.1
    have hall : n.tokens = [u] ++ [t] := by
      rw [tokens, hcs]
      exact congrArg (u :: ·) htokens
    exact hlast [u] hall ht

theorem admits_of_mem {n : Node} (hn : n.Every (fun k => k.isFilled) T) {b : Numeral}
    (hb : b ∈ n.numerals) : Part.number.admits b.token := by
  rcases mem_numerals.mp hb with hown | ⟨k, hk, hbelow⟩
  · exact admits_of_own hn.here hown
  · exact admits_of_mem (hn.node hk) hbelow
termination_by sizeOf n
decreasing_by exact sizeOf_lt hk

theorem mem_tokens_of_own {b : Numeral} (hb : b ∈ n.ownNumerals) : b.token ∈ n.tokens := by
  unfold ownNumerals at hb
  obtain ⟨m, -, hb⟩ := List.mem_flatMap.mp hb
  obtain ⟨t, ht, rfl⟩ := List.mem_map.mp hb
  exact List.mem_of_getLast? (Option.mem_toList.mp ht)

/-- A construct of nothing but a number. -/
theorem numerals_of_number (hn : n.Every (fun k => k.isFilled) T) (hs : n.rule.slots = [.one .number])
    (hm : n.rule.measure? = some m) (ht : n.children.head? = some (.token t)) :
    n.numerals = [⟨m, t⟩] := by
  have hrow := n.filled_row hn
  rw [hs] at hrow
  obtain ⟨u, rest, hcs, -, -, hrest, -⟩ := hrow.token fun _ => rfl
  obtain rfl : rest = [] := by simpa using hrest
  obtain rfl : u = t := by simpa [hcs] using ht
  have hnodes : n.nodes = [] := by rw [nodes, hcs]; rfl
  have htokens : n.tokens = [] ++ [u] := by rw [tokens, hcs]; rfl
  rw [numerals_eq, ownNumerals_of_last hm htokens, hnodes]
  rfl

end Node

/-! ## Values -/

namespace Text.Integer

theorem word?_eq_some {cs : List Char} {value : Int64} :
    word? cs = some value ↔ read? cs = some value.toInt := by
  unfold word? int64?
  have hmin : Int64.minValue.toInt = -2 ^ 63 := by decide
  have hmax : Int64.maxValue.toInt = 2 ^ 63 - 1 := by decide
  constructor
  · intro h
    obtain ⟨i, hread, hvalue⟩ := Option.bind_eq_some_iff.mp h
    split at hvalue
    · cases hvalue
      rw [hread, Int64.toInt_ofInt_of_le (by omega) (by omega)]
    · cases hvalue
  · intro h
    rw [h, Option.bind_some, if_pos ⟨Int64.minValue_le_toInt value, Int64.toInt_le value⟩,
      Int64.ofInt_toInt]

end Text.Integer

namespace Shape

variable {what : String} {span : Span} {value : Int64} {cs rest : List Element} {n : Node} {t : Token}

theorem chance_eq_ok {percent : UInt8} :
    chance value span = .ok percent ↔
      value.toInt = percent.toNat ∧ 1 ≤ value.toInt ∧ value.toInt ≤ 100 := by
  unfold chance
  split <;> rename_i h
  · rw [Except.ok.injEq, ← UInt8.toNat_inj, UInt8.toNat_ofNat']
    omega
  · simp only [reduceCtorEq, false_iff]
    omega

theorem reads_positive {u : UInt32} :
    positive what span cs = .ok (u, rest) ↔ ∃ t, cs = .token t :: rest ∧ t.Counts u ∧ u ≠ 0 := by
  unfold positive
  simp only [reads_bind, Prod.exists, reads_number, reads_lift, countOf_eq_ok]
  constructor
  · rintro ⟨value, _, _, ⟨t, hcs, ht, -⟩, u', _, ⟨hu, rfl⟩, h⟩
    split at h
    · obtain ⟨_, _, hfail, -⟩ := reads_bind.mp h
      exact (reads_fail.mp hfail).elim
    · obtain ⟨rfl, rfl⟩ := reads_done.mp h
      exact ⟨t, hcs, ⟨value, ht, hu⟩, ‹_›⟩
  · rintro ⟨t, hcs, ⟨value, ht, hu⟩, hne⟩
    refine ⟨value, t.span, rest, ⟨t, hcs, ht, rfl⟩, u, rest, ⟨hu, rfl⟩, ?_⟩
    rw [if_neg hne]
    rfl

end Shape

namespace Number.SaidBy

theorem of_counts {m : Measure} {t : Token} {u : UInt32} (h : t.Counts u)
    (hm : m.greatest = 2 ^ 32 - 1) (hpos : m.least = 0 ∨ m.least = 1 ∧ u ≠ 0) :
    SaidBy ⟨m, u.toNat⟩ ⟨m, t⟩ := by
  obtain ⟨value, hvalue, hu⟩ := h
  have hlt := u.toNat_lt
  refine ⟨rfl, hu ▸ Text.Integer.word?_eq_some.mp hvalue, ?_⟩
  unfold Measure.Allows
  dsimp only
  rcases hpos with hzero | ⟨hone, hne⟩
  · omega
  · have hne : u.toNat ≠ 0 := fun h => hne (UInt32.toNat_inj.mp h)
    omega

end Number.SaidBy

/-! ## Both -/

namespace Shape

variable {T : Token → Prop} {n : Node}

theorem numbers_of_query {q : Query} (h : query n = .ok q) (hr : n.rule ≠ .condChance) :
    Listing.numbers.query q = [] := by
  have hrule := rule_of_query h
  cases q with
  | chance percent => exact absurd hrule.symm hr
  | _ => rfl

theorem numbers_of_effect {e : Effect} (h : effect n = .ok e)
    (hr : n.rule ∉ [Rule.actAddSeqFlag, .actAddWedge, .actAwardPoints]) :
    Listing.numbers.effect e = [] := by
  have hgives : Gives (fun _ => True) (effect n) fun e => Listing.numbers.effect e = [] := by
    refine Yields.parts ?_
    split
    case h_36 => exact fun _ _ => .fail trivial
    case h_6 | h_7 | h_17 => simp_all
    all_goals repeat first | exact .done rfl | refine .behind fun _ => ?_
  exact hgives.ok h

/-- The numbers of parts that may be left out. -/
theorem numerals_of_option {m : Measure} {build : Node → Except ShapeFault UInt32} {rules : List Rule}
    {ns : List Node} {u? : Option UInt32}
    (h : List.Forall₂ (fun k u => k.rule ∈ rules ∧ build k = .ok u) ns u?.toList)
    (hbuild : ∀ k ∈ ns, k.rule ∈ rules → ∀ u, build k = .ok u →
      List.Forall₂ Number.SaidBy [⟨m, u.toNat⟩] k.numerals) :
    List.Forall₂ Number.SaidBy (u?.toList.map fun u => ⟨m, u.toNat⟩) (ns.flatMap Node.numerals) := by
  rw [List.map_eq_flatMap]
  exact Listing.Matches.flatMap (forall₂_of_mem h fun k hk u ⟨hr, hu⟩ => hbuild k hk hr u hu)

section

variable (hn : n.Every (fun k => k.isFilled) T)

include hn

theorem numerals_of_count {m : Measure} {u : UInt32} {what : String}
    (hs : n.rule.slots = [.one .number]) (hm : n.rule.measure? = some m) (hleast : m.least = 0)
    (hgreatest : m.greatest = 2 ^ 32 - 1) (h : n.parts (count what) = .ok u) :
    List.Forall₂ Number.SaidBy [⟨m, u.toNat⟩] n.numerals := by
  obtain ⟨_, h⟩ := parts_eq_ok.mp h
  obtain ⟨t, hcs, ht⟩ := reads_count.mp h
  rw [Node.numerals_of_number hn hs hm (by rw [hcs]; rfl)]
  exact .cons (.of_counts ht hgreatest (.inl hleast)) .nil

theorem numerals_of_width {u : UInt32} (hr : n.rule = .width)
    (h : n.parts (positive "wedge width") = .ok u) :
    List.Forall₂ Number.SaidBy [⟨.width, u.toNat⟩] n.numerals := by
  obtain ⟨_, h⟩ := parts_eq_ok.mp h
  obtain ⟨t, hcs, ht, hne⟩ := reads_positive.mp h
  rw [Node.numerals_of_number hn (by rw [hr]; rfl) (by rw [hr]; rfl) (by rw [hcs]; rfl)]
  exact .cons (.of_counts ht rfl (.inr ⟨rfl, hne⟩)) .nil

theorem numerals_of_query {q : Query} (hr : n.rule ∈ Rule.queries) (h : query n = .ok q) :
    List.Forall₂ Number.SaidBy (Listing.numbers.query q) n.numerals := by
  by_cases hchance : n.rule = .condChance
  · unfold query at h
    rw [hchance] at h
    obtain ⟨_, h⟩ := parts_eq_ok.mp h
    obtain ⟨⟨value, span⟩, _, hnumber, h⟩ := reads_bind.mp h
    obtain ⟨percent, _, hpercent, h⟩ := reads_bind.mp h
    obtain ⟨rfl, -⟩ := reads_done.mp h
    obtain ⟨t, hcs, hvalue, -⟩ := reads_number.mp hnumber
    obtain ⟨hpercent, hleast, hgreatest⟩ := chance_eq_ok.mp (reads_lift.mp hpercent).1
    rw [Node.numerals_of_number hn (by rw [hchance]; rfl) (by rw [hchance]; rfl) (by rw [hcs]; rfl)]
    refine .cons ⟨rfl, hpercent ▸ Text.Integer.word?_eq_some.mp hvalue, ?_⟩ .nil
    exact hpercent ▸ ⟨hleast, hgreatest⟩
  · have hquiet : ∀ r ∈ Rule.queries, r = .condChance ∨ !r.leadsToNumbers := by decide
    rw [numbers_of_query h hchance,
      Node.numerals_of_quiet hn ((hquiet _ hr).resolve_left hchance)]
    exact .nil

theorem numerals_of_addSeqFlag {e : Effect} (hr : n.rule = .actAddSeqFlag) (h : effect n = .ok e) :
    List.Forall₂ Number.SaidBy (Listing.numbers.effect e) n.numerals := by
  have hrow := n.filled_row hn
  unfold effect at h
  rw [hr] at h hrow
  obtain ⟨_, h⟩ := parts_eq_ok.mp h
  obtain ⟨flag, _, hflag, h⟩ := reads_bind.mp h
  obtain ⟨limit, _, hlimit, h⟩ := reads_bind.mp h
  obtain ⟨rfl, -⟩ := reads_done.mp h
  obtain ⟨t, hcs, -⟩ := reads_id.mp hflag
  rw [hcs] at hrow
  obtain ⟨_, _, heq, -, -, hrest⟩ := hrow.one
  cases heq
  obtain ⟨ns, rfl, hns⟩ := reads_last_option hrest.1 hlimit
  have hnodes : n.nodes = ns := by simp [Node.nodes, hcs]
  rw [Node.numerals_eq, Node.ownNumerals_of_none (by rw [hr]; rfl), hnodes, List.nil_append]
  refine numerals_of_option hns fun k hk hkr u hu => ?_
  rw [List.mem_singleton] at hkr
  exact numerals_of_count (hn.node (hnodes ▸ hk)) (by rw [hkr]; rfl) (by rw [hkr]; rfl) rfl rfl hu

theorem numerals_of_addWedge {e : Effect} (hr : n.rule = .actAddWedge) (h : effect n = .ok e) :
    List.Forall₂ Number.SaidBy (Listing.numbers.effect e) n.numerals := by
  have hrow := n.filled_row hn
  unfold effect at h
  rw [hr] at h hrow
  obtain ⟨_, h⟩ := parts_eq_ok.mp h
  obtain ⟨text, _, htext, h⟩ := reads_bind.mp h
  obtain ⟨width, _, hwidth, h⟩ := reads_bind.mp h
  obtain ⟨spinner, rest, hspinner, h⟩ := reads_bind.mp h
  obtain ⟨rfl, -⟩ := reads_done.mp h
  obtain ⟨t, hcs, -⟩ := reads_string.mp htext
  obtain ⟨ns, rfl, hns⟩ := reads_option hwidth
  obtain ⟨u, rfl, -⟩ := reads_id.mp hspinner
  rw [hcs] at hrow
  obtain ⟨_, _, heq, -, -, hrest, -⟩ := hrow.one
  cases heq
  have hnodes : n.nodes = ns := by
    have hlast : fill [.one .word] (.token u :: rest) := by
      cases width with
      | none =>
          obtain rfl := List.forall₂_nil_right_iff.mp hns
          rwa [List.map_nil, List.nil_append, fill_optional_of_not_fits rfl] at hrest
      | some v =>
          obtain ⟨k, ks, ⟨hk, -⟩, hks, rfl⟩ := List.forall₂_cons_right_iff.mp hns
          obtain rfl := List.forall₂_nil_right_iff.mp hks
          have hfits : (Part.node [.width]).fits (.node k) := by simpa [Part.fits] using hk
          rwa [List.map_singleton, List.singleton_append, fill_optional_of_fits hfits] at hrest
    rw [fill_one, Bool.and_eq_true, fill_nil, List.isEmpty_iff] at hlast
    simp [Node.nodes, hcs, hlast.2]
  rw [Node.numerals_eq, Node.ownNumerals_of_none (by rw [hr]; rfl), hnodes, List.nil_append]
  refine numerals_of_option hns fun k hk hkr u hu => ?_
  exact numerals_of_width (hn.node (hnodes ▸ hk)) (List.mem_singleton.mp hkr) hu

theorem numerals_of_awardPoints {e : Effect} (hr : n.rule = .actAwardPoints) (h : effect n = .ok e) :
    List.Forall₂ Number.SaidBy (Listing.numbers.effect e) n.numerals := by
  have hrow := n.filled_row hn
  unfold effect at h
  rw [hr] at h hrow
  obtain ⟨_, h⟩ := parts_eq_ok.mp h
  obtain ⟨⟨amount, span⟩, _, hamount, h⟩ := reads_bind.mp h
  obtain ⟨reason, _, hreason, h⟩ := reads_bind.mp h
  obtain ⟨rfl, -⟩ := reads_done.mp h
  obtain ⟨t, hcs, hvalue, -⟩ := reads_number.mp hamount
  rw [hcs] at hrow
  obtain ⟨_, _, heq, -, -, hrest⟩ := hrow.one
  cases heq
  obtain ⟨ns, rfl, hns⟩ := reads_last_option hrest.1 hreason
  have hnodes : n.nodes = ns := by simp [Node.nodes, hcs]
  have htokens : n.tokens = [] ++ [t] := by simp [Node.tokens, hcs]
  have hquiet : ns.flatMap Node.numerals = [] := by
    refine List.flatMap_eq_nil_iff.mpr fun k hk => ?_
    have hreason := List.mem_singleton.mp (((List.forall₂_and_left _ _).mp hns).1 k hk)
    exact Node.numerals_of_quiet (hn.node (hnodes ▸ hk)) (by rw [hreason]; rfl)
  rw [Node.numerals_eq, Node.ownNumerals_of_last (by rw [hr]; rfl) htokens, hnodes, hquiet]
  refine .cons ⟨rfl, Text.Integer.word?_eq_some.mp hvalue, ?_⟩ .nil
  exact ⟨Int64.minValue_le_toInt amount, Int64.toInt_le amount⟩

theorem numerals_of_effect {e : Effect} (hr : n.rule ∈ Rule.effects) (h : effect n = .ok e) :
    List.Forall₂ Number.SaidBy (Listing.numbers.effect e) n.numerals := by
  by_cases hloud : n.rule ∈ [Rule.actAddSeqFlag, .actAddWedge, .actAwardPoints]
  · simp only [List.mem_cons, List.not_mem_nil, or_false] at hloud
    rcases hloud with hr | hr | hr
    · exact numerals_of_addSeqFlag hn hr h
    · exact numerals_of_addWedge hn hr h
    · exact numerals_of_awardPoints hn hr h
  · have hquiet : ∀ r ∈ Rule.effects,
        r ∈ [Rule.actAddSeqFlag, .actAddWedge, .actAwardPoints] ∨ !r.leadsToNumbers := by decide
    rw [numbers_of_effect h hloud, Node.numerals_of_quiet hn ((hquiet _ hr).resolve_left hloud)]
    exact .nil

theorem numerals_of_retryPolicy {r : RetryPolicy} (hr : n.rule ∈ Rule.retries)
    (h : retryPolicy n = .ok r) :
    List.Forall₂ Number.SaidBy (Listing.numbers.retry r) n.numerals := by
  have hquiet (hr : n.rule = .onFalseCancel ∨ n.rule = .onFalseRetryNextTurn) : n.numerals = [] :=
    Node.numerals_of_quiet hn (by rcases hr with hr | hr <;> rw [hr] <;> rfl)
  unfold retryPolicy at h
  split at h <;> rename_i hrule
  · cases h
    rw [hquiet (.inl hrule)]
    exact .nil
  · cases h
    rw [hquiet (.inr hrule)]
    exact .nil
  · have hrule : n.rule = .onFalseRetryAfter := by simp_all [Rule.retries]
    rw [parts_map] at h
    obtain ⟨u, hu, rfl⟩ := h
    exact numerals_of_count hn (by rw [hrule]; rfl) (by rw [hrule]; rfl) rfl rfl hu

end

end Shape

open Shape

variable {T : Token → Prop} {n : Node} {limit : Nat}

theorem Listing.numbers_matches (T : Token → Prop) :
    numbers.Matches Node.ownNumerals Number.SaidBy T fun r => !r.leadsToNumbers := by
  have hframe : ∀ r ∈ [Rule.triggerDef, .triggerBlock, .doStmt, .condBlock], r.measure? = none := by
    decide
  have hgroup : ∀ r ∈ Rule.groups, r.measure? = none := by decide
  have hturns : ∀ r ∈ Rule.schedules, r.measure? = some .turns := by decide
  exact {
    closed := Rule.closed_not_leadsToNumbers
    silent := fun _ h => Node.ownNumerals_of_quiet h
    around := by decide
    frame := fun hr => Node.ownNumerals_of_none (hframe _ hr)
    query := fun hn hr h => numerals_of_query hn hr h
    group := fun {n members} _ hr _ => by
      rw [Node.ownNumerals_of_none (hgroup _ hr)]
      exact .nil
    effect := fun hn hr h => numerals_of_effect hn hr h
    patch := fun {n _ _} hn hr => by
      have hquiet : n.gather Node.ownNumerals = [] := Node.numerals_of_quiet hn (by rw [hr]; rfl)
      rw [hquiet]
      exact .nil
    turns := fun {n _ anchor t} hr htokens h => by
      have hlast : n.tokens = [anchor] ++ [t] := htokens
      rw [Node.ownNumerals_of_last (hturns _ hr) hlast]
      exact .cons (.of_counts h rfl (.inl rfl)) .nil
    retry := fun hn hr h => numerals_of_retryPolicy hn hr h }

/-! ## Items and spinners -/

/-- Where only constructs of some rules lead to numbers, the others may be passed over. -/
theorem Node.numerals_filter (hn : n.Every (fun k => k.isFilled) T) (hm : n.rule.measure? = none)
    {rules : List Rule}
    (hslots : n.rule.slots.all (Slot.keepsTo fun r => decide (r ∈ rules) || !r.leadsToNumbers)) :
    n.numerals = (n.nodes.filter (·.rule ∈ rules)).flatMap numerals := by
  have hquiet : ∀ k ∈ n.nodes, k.rule ∉ rules → k.numerals = [] := by
    intro k hk hr
    have hrule := rule_of_slots hn.here hslots hk
    exact numerals_of_quiet (hn.node hk) (by simpa [hr] using hrule)
  rw [numerals_eq, ownNumerals_of_none hm, List.nil_append]
  generalize n.nodes = ns at hquiet ⊢
  induction ns with
  | nil => rfl
  | cons k ns ih =>
      obtain ⟨hk, hns⟩ := List.forall_mem_cons.mp hquiet
      rw [List.flatMap_cons, ih hns]
      by_cases hr : k.rule ∈ rules
      · rw [List.filter_cons_of_pos (by simpa using hr), List.flatMap_cons]
      · rw [List.filter_cons_of_neg (by simpa using hr), hk hr, List.nil_append]

/-- The field of a consumable that tells how often it can be used. -/
def Consumable.usesField : Field ConsumableDraft :=
  ⟨[.consumableUses], .slot CountedBy, (·.usesLeft), fun d x => { d with usesLeft := x }⟩

theorem Consumable.usesField_mem : usesField ∈ fields :=
  List.mem_cons_self

/-- The field of an item that tells how it is used up. -/
def Item.consumableField : Field Item :=
  ⟨[.consumable], .slot Consumable.Reflects, (·.consumable), fun i x => { i with consumable := x }⟩

theorem Item.consumableField_mem : consumableField ∈ fields := by
  simp [fields, consumableField]

theorem CountedBy.numerals {u : UInt32} (h : CountedBy u n) (hn : n.Every (fun k => k.isFilled) T)
    (hr : n.rule = .consumableUses) :
    List.Forall₂ Number.SaidBy [⟨.uses, u.toNat⟩] n.numerals := by
  obtain ⟨t, rest, value, hcs, hvalue, hu, hne⟩ := h
  rw [Node.numerals_of_number hn (by rw [hr]; rfl) (by rw [hr]; rfl) (by rw [hcs]; rfl)]
  exact .cons (.of_counts ⟨value, hvalue, hu⟩ rfl (.inr ⟨rfl, hne⟩)) .nil

theorem Consumable.Reflects.numerals {c : Consumable} (h : c.Reflects n)
    (hn : n.Every (fun k => k.isFilled) T) (hr : n.rule = .consumable) :
    List.Forall₂ Number.SaidBy c.numbers n.numerals := by
  have huses : List.Forall₂ CountedBy [c.usesLeft] (n.nodes.filter (·.rule ∈ [.consumableUses])) :=
    h.kept usesField usesField_mem
  have hslots : n.rule.slots.all (Slot.keepsTo fun r =>
      decide (r ∈ [Rule.consumableUses]) || !r.leadsToNumbers) := by
    rw [hr]
    decide
  rw [Node.numerals_filter hn (by rw [hr]; rfl) hslots]
  obtain ⟨k, ks, huses, hnil, heq⟩ := List.forall₂_cons_left_iff.mp huses
  obtain rfl := List.forall₂_nil_left_iff.mp hnil
  obtain ⟨hmem, hrule⟩ := List.mem_filter.mp (heq ▸ List.mem_singleton_self k)
  rw [heq, List.flatMap_singleton]
  exact huses.numerals (hn.node hmem) (by simpa using hrule)

theorem Item.Reflects.numerals {i : Item} (h : i.Reflects n) (hn : n.Every (fun k => k.isFilled) T)
    (hr : n.rule = .itemDef) :
    List.Forall₂ Number.SaidBy (i.consumable.toList.flatMap Consumable.numbers) n.numerals := by
  have hconsumable : List.Forall₂ Consumable.Reflects i.consumable.toList
      (n.nodes.filter (·.rule ∈ [.consumable])) :=
    h.gathers.kept consumableField consumableField_mem
  have hslots : n.rule.slots.all (Slot.keepsTo fun r =>
      decide (r ∈ [Rule.consumable]) || !r.leadsToNumbers) := by
    rw [hr]
    decide
  rw [Node.numerals_filter hn (by rw [hr]; rfl) hslots]
  refine Listing.Matches.flatMap (forall₂_of_mem hconsumable.flip fun k hk c hc => ?_)
  obtain ⟨hmem, hrule⟩ := List.mem_filter.mp hk
  exact Consumable.Reflects.numerals hc (hn.node hmem) (by simpa using hrule)

theorem Shape.numerals_of_wedge {w : Wedge} (hn : n.Every (fun k => k.isFilled) T)
    (h : wedge n = .ok w) : List.Forall₂ Number.SaidBy w.numbers n.numerals := by
  have hrow := n.filled_row hn
  unfold wedge at h
  split at h <;> rename_i hr
  · cases h
  · rw [not_not] at hr
    rw [hr] at hrow
    obtain ⟨_, h⟩ := parts_eq_ok.mp h
    obtain ⟨text, _, htext, h⟩ := reads_bind.mp h
    obtain ⟨width, _, hwidth, h⟩ := reads_bind.mp h
    obtain ⟨rfl, -⟩ := reads_done.mp h
    obtain ⟨t, hcs, -⟩ := reads_string.mp htext
    rw [hcs] at hrow
    obtain ⟨_, _, heq, -, -, hrest⟩ := hrow.one
    cases heq
    obtain ⟨ns, rfl, hns⟩ := reads_last_option hrest.1 hwidth
    have hnodes : n.nodes = ns := by simp [Node.nodes, hcs]
    rw [Node.numerals_eq, Node.ownNumerals_of_none (by rw [hr]; rfl), hnodes, List.nil_append]
    refine numerals_of_option hns fun k hk hkr u hu => ?_
    exact numerals_of_width (hn.node (hnodes ▸ hk)) (List.mem_singleton.mp hkr) hu

theorem Shape.numerals_of_spinner {s : Spinner} (hn : n.Every (fun k => k.isFilled) T)
    (hr : n.rule = .spinnerDef) (h : spinner n = .ok s) :
    List.Forall₂ Number.SaidBy (s.wedges.flatMap Wedge.numbers) n.numerals := by
  unfold spinner at h
  obtain ⟨⟨id, rest⟩, hhead, h⟩ := bind_eq_ok.mp h
  obtain ⟨ws, hws, h⟩ := bind_eq_ok.mp h
  split at h
  · cases h
  · cases h
    obtain ⟨t, hcs, -⟩ := reads_wordOrString.mp (head_eq_ok.mp hhead)
    have hnodes : n.nodes = Element.nodes rest := by simp [Node.nodes, hcs]
    rw [Node.numerals_eq, Node.ownNumerals_of_none (by rw [hr]; rfl), hnodes, List.nil_append]
    refine Listing.Matches.flatMap (forall₂_of_mem (mapM_eq_ok.mp hws) fun k hk w hw => ?_)
    exact numerals_of_wedge (hn.node (hnodes ▸ hk)) hw

/-- What is built without a fault has the numbers of its construct, exactly as they are written and
all of them in range. -/
theorem Definition.numbers_matches (hn : n.Every (fun m => m.isFilled) T) {d : Definition}
    (h : Makes (definition limit n) d) :
    List.Forall₂ Number.SaidBy d.numbers n.numerals := by
  have hquiet (hr : !n.rule.leadsToNumbers) : List.Forall₂ Number.SaidBy [] n.numerals := by
    rw [Node.numerals_of_quiet hn hr]
    exact .nil
  unfold definition at h
  split at h <;> rename_i hr
  case h_8 => exact (makes_fail.mp h).elim
  case h_1 =>
    obtain ⟨x, -, hd⟩ := makes_given.mp h
    obtain rfl := makes_done.mp hd
    exact hquiet (by rw [hr]; rfl)
  case h_6 =>
    obtain ⟨s, hs, hd⟩ := makes_given.mp h
    obtain rfl := makes_done.mp hd
    exact numerals_of_spinner hn hr hs
  all_goals
    obtain ⟨x, hx, hd⟩ := (makes_bind fun _ => Blind.done _).mp h
    obtain rfl := makes_done.mp hd
  case h_3 => exact (Item.makes_iff.mp hx).numerals hn hr
  case h_5 => exact (Listing.numbers_matches T).trigger hn hr hx
  all_goals exact hquiet (by rw [hr]; rfl)

end Storyworld
