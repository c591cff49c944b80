import Mathlib.Tactic.SplitIfs
import Storyworld.Proofs.Shape.Builds
import Storyworld.Proofs.Shape.Fields
import Storyworld.Proofs.Spelling.Series
import Storyworld.Proofs.Tree.Every

namespace Storyworld

namespace Grammar

/-! Blocks whose statements are read one after the other, and then change something one after the
other. What a block tells of a record is told field by field. -/

open Shape

variable {α γ δ σ : Type} {c : Context} {starters : List String} {statement : Parse Node}
  {ps qs : List Piece} {K : List Token → Prop} {N : Node → Prop}

/-- A statement of a block, told by the word it begins with. -/
def starting (starters : List String) (statement : Parse Node) : Parse Node := do
  if ← atOneOf starters then statement else unexpected (starters ++ ["\x7d"])

theorem Takes.starting (hstart : Piece.startWith starters ps) (h : Takes c statement ps K N) :
    Takes c (starting starters statement) ps K N := by
  refine .atOneOf (b := true) (fun ts rest hts _ => ?_) h
  obtain ⟨t, us, rfl, ht⟩ := hts.isOneOf_head hstart
  simpa using ht

theorem blockOf_takes {N : List Node → Prop}
    (h : Clauses c starters (starting starters statement) ps N) :
    Takes c (blockOf starters statement) (Piece.braces ps) K N :=
  h.block

/-! ## One change after another -/

namespace Clauses

variable {change : α → Node → Collecting α} {A B C : α → Prop}

/-- The statements of a block, one for each of some things. -/
theorem list {xs : List γ} {f : γ → List Piece} {P : γ → Node → Prop}
    (hstart : ∀ x ∈ xs, Piece.startWith starters (f x))
    (h : ∀ x ∈ xs, Takes c statement (f x) (EndsIn starters) (P x)) :
    Clauses c starters (starting starters statement) (xs.flatMap f) (List.Forall₂ P xs) :=
  each hstart fun x hx => (h x hx).starting (hstart x hx)

/-- A statement that has to be there. -/
theorem step (hstart : Piece.startWith starters ps)
    (h : Takes c statement ps (EndsIn starters) fun n => ∀ a, A a → Builds (change a n) B) :
    Clauses c starters (starting starters statement) ps (Turns change A · B) := by
  refine (one hstart (h.starting hstart)).mono ?_
  rintro _ ⟨n, rfl, hn⟩
  exact .one hn

theorem andThen (hp : Clauses c starters statement ps (Turns change A · B))
    (hq : Clauses c starters statement qs (Turns change B · C)) :
    Clauses c starters statement (ps ++ qs) (Turns change A · C) := by
  refine (hp.append hq).mono ?_
  rintro _ ⟨ks, ms, rfl, hks, hms⟩
  exact hks.append hms

end Clauses

/-! ## One field after another -/

/-- A node that says `x`, up to what `view` leaves out. -/
def SaysUpTo (view : γ → δ) (P : γ → Node → Prop) (x : γ) (n : Node) : Prop :=
  ∃ y, view y = view x ∧ P y n

/-- Nodes that say some values up to what `view` leaves out say other values, which differ only in
that. -/
theorem SaysUpTo.exists_values {view : γ → δ} {P : γ → Node → Prop} {xs : List γ} {ns : List Node}
    (h : List.Forall₂ (SaysUpTo view P) xs ns) :
    ∃ ys, ys.map view = xs.map view ∧ List.Forall₂ P ys ns := by
  induction h with
  | nil => exact ⟨[], rfl, .nil⟩
  | cons hn _ ih =>
      obtain ⟨y, hy, hP⟩ := hn
      obtain ⟨ys, hview, hys⟩ := ih
      exact ⟨y :: ys, by rw [List.map_cons, List.map_cons, hy, hview], .cons hP hys⟩

section

variable {b : σ} {field : Field σ} {fields : List (Field σ)} {rules : List Rule}
  {f : γ → List Piece} {P : γ → Node → Prop}

namespace Clauses

/-- The statements about one field, and those about others behind them. -/
theorem next (hp : Clauses c starters statement ps (field.Tells b))
    (hq : Clauses c starters statement qs (TellsEach b fields)) :
    Clauses c starters statement (ps ++ qs) (TellsEach b (field :: fields)) := by
  refine (hp.append hq).mono ?_
  rintro _ ⟨ks, ms, rfl, hks, hms⟩
  exact .cons hks hms

/-- The statements about the last field. -/
theorem last (hp : Clauses c starters statement ps (field.Tells b)) :
    Clauses c starters statement ps (TellsEach b [field]) :=
  hp.mono fun _ => .one

/-- Statements that say the entries of a list, one each. -/
theorem entries {xs : List γ} {get : σ → List γ} {set : σ → List γ → σ} (hget : get b = xs)
    (hstart : ∀ x ∈ xs, Piece.startWith starters (f x))
    (h : ∀ x ∈ xs, Takes c statement (f x) (EndsIn starters) fun n => n.rule ∈ rules ∧ P x n) :
    Clauses c starters (starting starters statement) (xs.flatMap f)
      (Field.Tells ⟨rules, .list P, get, set⟩ b) := by
  subst hget
  exact (list (P := fun x n => n.rule ∈ rules ∧ P x n) hstart h).mono fun _ => .list

/-- A statement that fills a slot, and may be left out. -/
theorem slot {x? : Option γ} {get : σ → Option γ} {set : σ → Option γ → σ} (hget : get b = x?)
    (hstart : ∀ x ∈ x?, Piece.startWith starters (f x))
    (h : ∀ x ∈ x?, Takes c statement (f x) (EndsIn starters) fun n => n.rule ∈ rules ∧ P x n) :
    Clauses c starters (starting starters statement) (x?.toList.flatMap f)
      (Field.Tells ⟨rules, .slot P, get, set⟩ b) := by
  subst hget
  exact (list (P := fun x n => n.rule ∈ rules ∧ P x n) (fun x hx => hstart x (by simpa using hx))
    fun x hx => h x (by simpa using hx)).mono fun _ => .slot

/-- A statement that fills a slot, and has to be there. -/
theorem filled {x : γ} {get : σ → Option γ} {set : σ → Option γ → σ} (hget : get b = some x)
    (hstart : Piece.startWith starters ps)
    (h : Takes c statement ps (EndsIn starters) fun n => n.rule ∈ rules ∧ P x n) :
    Clauses c starters (starting starters statement) ps
      (Field.Tells ⟨rules, .slot P, get, set⟩ b) := by
  have hslot : Clauses c starters (starting starters statement)
      ((some x).toList.flatMap fun _ => ps) (Field.Tells ⟨rules, .slot P, get, set⟩ b) := by
    refine slot hget (fun _ _ => hstart) ?_
    rintro _ ⟨⟩
    exact h
  simpa using hslot

/-- A statement that is there only where a flag is set. -/
theorem flag {q : Bool} {get : σ → Bool} {set : σ → Bool → σ} (hget : get b = q)
    (hstart : Piece.startWith starters ps)
    (h : q → Takes c statement ps (EndsIn starters) fun n => n.rule ∈ rules) :
    Clauses c starters (starting starters statement) (if q then ps else [])
      (Field.Tells ⟨rules, .flag, get, set⟩ b) := by
  subst hget
  split_ifs with hq
  · refine (one hstart ((h hq).starting hstart)).mono ?_
    rintro _ ⟨n, rfl, hn⟩
    exact ⟨by simpa using hn, hq⟩
  · exact nil ⟨by simp, by simpa [Keeping.flag] using hq⟩

/-- A statement that says all entries of a list, where there are some. -/
theorem together {xs : List γ} [Decidable (xs ≠ [])] {P : List γ → Node → Prop} {get : σ → List γ}
    {set : σ → List γ → σ} (hget : get b = xs) (hstart : Piece.startWith starters ps)
    (h : xs ≠ [] → Takes c statement ps (EndsIn starters) fun n => n.rule ∈ rules ∧ P xs n) :
    Clauses c starters (starting starters statement) (if xs ≠ [] then ps else [])
      (Field.Tells ⟨rules, .joined P, get, set⟩ b) := by
  subst hget
  split_ifs with hne
  · refine (one hstart ((h hne).starting hstart)).mono ?_
    rintro _ ⟨n, rfl, hr, hn⟩
    exact ⟨by simpa using hr, [get b], .cons hn .nil, by simp⟩
  · exact nil ⟨by simp, [], .nil, by simpa using (not_not.mp hne).symm⟩

/-- The statements about the first `k` fields, and those about the others behind them, which tell a
record that may differ from `b` in these. -/
theorem upTo {R : σ → Prop} (k : Nat) (hget : ∀ b', R b' → ∀ f ∈ fields.take k, f.get b = f.get b')
    (hp : Clauses c starters statement ps (TellsEach b (fields.take k)))
    (hq : Clauses c starters statement qs fun ns => ∃ b', R b' ∧ TellsEach b' (fields.drop k) ns) :
    Clauses c starters statement (ps ++ qs) fun ns => ∃ b', R b' ∧ TellsEach b' fields ns := by
  refine (hp.append hq).mono ?_
  rintro _ ⟨ks, ms, rfl, hks, b', hb', hms⟩
  exact ⟨b', hb', List.take_append_drop k fields ▸ (hks.congr (hget b' hb')).append hms⟩

end Clauses

namespace Series

variable {step : Parse (Option Node)}

/-- The rounds about one field, and those about others behind them. -/
theorem next (hp : Series c (fun _ => step) ps Anything (field.Tells b))
    (hq : Series c (fun _ => step) qs Anything (TellsEach b fields)) :
    Series c (fun _ => step) (ps ++ qs) Anything (TellsEach b (field :: fields)) := by
  refine (hp.append hq fun _ _ _ _ => trivial).mono ?_
  rintro _ ⟨ks, ms, rfl, hks, hms⟩
  exact .cons hks hms

theorem last (hp : Series c (fun _ => step) ps Anything (field.Tells b)) :
    Series c (fun _ => step) ps Anything (TellsEach b [field]) :=
  hp.mono fun _ => .one

/-- A round that fills a slot, and may be left out. -/
theorem slot {x? : Option γ} {get : σ → Option γ} {set : σ → Option γ → σ} (hget : get b = x?)
    (hne : ∀ x ∈ x?, f x ≠ [])
    (h : ∀ x ∈ x?, Takes c step (f x) Anything fun n? =>
      ∃ n, n? = some n ∧ n.rule ∈ rules ∧ P x n) :
    Series c (fun _ => step) (x?.toList.flatMap f) Anything
      (Field.Tells ⟨rules, .slot P, get, set⟩ b) := by
  subst hget
  refine (each (N := fun x n => n.rule ∈ rules ∧ P x n) (fun x hx => ?_)
    fun _ _ _ _ _ => trivial).mono fun _ => .slot
  rw [Option.mem_toList] at hx
  exact .once (hne x hx) (h x hx)

end Series

end

end Grammar

end Storyworld
