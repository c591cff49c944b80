import Mathlib.Tactic.SplitIfs
import Storyworld.Proofs.Grammar.Run
import Storyworld.Proofs.Spelling.Piece

namespace Storyworld.Grammar

/-! Parsers that take a spelling: they read the tokens that spell some pieces, and leave what
follows. -/

variable {α β γ : Type} {c : Context} {s s' s'' : State} {rest : List Token} {p : Piece}
  {ps qs : List Piece} {K K' : List Token → Prop} {w : String} {m : Mark}

/-- A state that differs in how far reading has come, and in the log. -/
structure State.Past (s : State) (rest : List Token) (s' : State) : Prop where
  rest : s'.rest = rest
  depth : s'.depth = s.depth
  faults : s'.faults = s.faults

theorem State.Past.trans {rest' : List Token} (h : s.Past rest s') (h' : s'.Past rest' s'') :
    s.Past rest' s'' :=
  ⟨h'.rest, h'.depth.trans h.depth, h'.faults.trans h.faults⟩

/-- Where a parser finds the pieces `ps` spelled, and what follows is as `K` says, it takes these
tokens and gives a result that satisfies `Q`. -/
def Takes (c : Context) (p : Parse α) (ps : List Piece) (K : List Token → Prop) (Q : α → Prop) :
    Prop :=
  ∀ ⦃s : State⦄ ⦃ts rest : List Token⦄, Spelled ps ts → s.rest = ts ++ rest → K rest →
    ∃ a s', p c s = .ok a s' ∧ Q a ∧ s.Past rest s'

/-- Whatever follows. -/
def Anything (_ : List Token) : Prop :=
  True

/-- What follows does not begin with a token that satisfies `test`. -/
def Without (test : Token → Bool) (rest : List Token) : Prop :=
  rest[0]?.any test = false

/-- The first token of the pieces, or behind them if there are none, passes or fails a test. -/
def Begins (ps : List Piece) (K : List Token → Prop) (test : Token → Bool) (b : Bool) : Prop :=
  ∀ ⦃ts rest : List Token⦄, Spelled ps ts → K rest → (ts ++ rest)[0]?.any test = b

namespace Begins

variable {test : Token → Bool} {b : Bool}

theorem cons (h : ∀ t, p.Spells t → test t = b) : Begins (p :: ps) K test b := by
  intro ts rest hts _
  obtain ⟨t, us, rfl, ht, -⟩ := hts.cons_inv
  simpa using h t ht

theorem nil (h : ∀ rest, K rest → Without test rest) : Begins [] K test false := by
  intro ts rest hts hrest
  cases hts
  simpa [Without] using h rest hrest

theorem append (hp : ps ≠ [] → Begins ps Anything test b) (hq : ps = [] → Begins qs K test b) :
    Begins (ps ++ qs) K test b := by
  cases ps with
  | nil => exact hq rfl
  | cons p ps =>
      intro ts rest hts _
      obtain ⟨us, vs, rfl, hus, -⟩ := hts.append_inv
      rw [List.append_assoc]
      exact hp (by simp) hus trivial

end Begins

namespace Takes

variable {q : Parse α} {f : α → Parse β} {Q : α → Prop} {R : β → Prop}

/-! ## Putting parsers together -/

theorem done {a : α} (h : Q a) : Takes c (pure a) [] K Q := by
  intro s ts rest hts hs _
  cases hts
  exact ⟨a, s, rfl, h, hs, rfl, rfl⟩

theorem mono {Q' : α → Prop} (hq : Takes c q ps K Q) (h : ∀ a, Q a → Q' a) : Takes c q ps K Q' := by
  intro s ts rest hts hs hrest
  obtain ⟨a, s', hrun, ha, hpast⟩ := hq hts hs hrest
  exact ⟨a, s', hrun, h a ha, hpast⟩

theorem weaken (hq : Takes c q ps K Q) (h : ∀ rest, K' rest → K rest) : Takes c q ps K' Q :=
  fun _ _ _ hts hs hrest => hq hts hs (h _ hrest)

theorem bind (hq : Takes c q ps K Q) (hf : ∀ a, Q a → Takes c (f a) qs K' R)
    (hK : ∀ us rest, Spelled qs us → K' rest → K (us ++ rest)) :
    Takes c (q >>= f) (ps ++ qs) K' R := by
  intro s ts rest hts hs hrest
  obtain ⟨us, vs, rfl, hus, hvs⟩ := hts.append_inv
  obtain ⟨a, s', hrun, ha, hpast⟩ :=
    hq hus (by rw [hs, List.append_assoc]) (hK vs rest hvs hrest)
  obtain ⟨b, s'', hrun', hb, hpast'⟩ := hf a ha hvs hpast.rest hrest
  refine ⟨b, s'', ?_, hb, hpast.trans hpast'⟩
  rw [run_bind, hrun]
  exact hrun'

/-- Putting parsers together where the first one does not mind what follows. -/
theorem andThen (hq : Takes c q ps Anything Q) (hf : ∀ a, Q a → Takes c (f a) qs K R) :
    Takes c (q >>= f) (ps ++ qs) K R :=
  hq.bind hf fun _ _ _ _ => trivial

theorem map {g : α → β} (hq : Takes c q ps K Q) (h : ∀ a, Q a → R (g a)) :
    Takes c (g <$> q) ps K R := by
  intro s ts rest hts hs hrest
  obtain ⟨a, s', hrun, ha, hpast⟩ := hq hts hs hrest
  refine ⟨g a, s', ?_, h a ha, hpast⟩
  rw [run_map, hrun]

/-- The last parser of several, whose result the parts are made of. -/
theorem last {g : α → β} (hq : Takes c q ps K fun a => R (g a)) :
    Takes c (q >>= fun a => pure (g a)) ps K R :=
  hq.map fun _ h => h

/-- A parser behind which one more may take a token that is not there. -/
theorem before {r : Parse γ} (hq : Takes c q ps K Q) (hr : Takes c r [] K fun _ => True) :
    Takes c (do let a ← q; let _ ← r; pure a) ps K Q := by
  rw [← List.append_nil ps]
  refine hq.bind (R := Q) (fun a ha => ?_) fun us rest hus hrest => ?_
  · exact hr.map fun _ _ => ha
  · cases hus
    exact hrest

theorem nodeBy {parts : Parse (Rule × List Element)} {N : Node → Prop}
    (hp : Takes c parts ps K fun p => ∀ span, N (.mk p.1 span p.2)) :
    Takes c (nodeBy parts) ps K N := by
  intro s ts rest hts hs hrest
  obtain ⟨⟨r, cs⟩, s', hrun, h, hpast⟩ := hp hts hs hrest
  refine ⟨_, s', ?_, h ((s.place c).upTo s'.last), hpast⟩
  rw [run_nodeBy, hrun]

theorem node {r : Rule} {parts : Parse (List Element)} {N : Node → Prop}
    (hp : Takes c parts ps K fun cs => ∀ span, N (.mk r span cs)) :
    Takes c (Grammar.node r parts) ps K N := by
  intro s ts rest hts hs hrest
  obtain ⟨cs, s', hrun, h, hpast⟩ := hp hts hs hrest
  refine ⟨_, s', ?_, h ((s.place c).upTo s'.last), hpast⟩
  rw [run_node, hrun]

/-- A parser that depends on the levels allowed. -/
theorem within {f : Nat → Parse α} (h : Takes c (f c.settings.maxNesting) ps K Q) :
    Takes c (do f (← read).settings.maxNesting) ps K Q := by
  intro s ts rest hts hs hrest
  rw [run_within]
  exact h hts hs hrest

/-! ## Taking tokens -/

theorem depthAfter_of_flat {t : Token} {depth : Nat} (hp : p.isFlat) (ht : p.Spells t) :
    depthAfter depth t = depth := by
  cases ht with
  | word span =>
      have hkind (m : Mark) : Token.Kind.ofWord ‹String›.toList ≠ .mark m := by
        unfold Token.Kind.ofWord
        simp only
        split_ifs <;> simp
      unfold depthAfter
      split
      · exact absurd ‹_› (hkind _)
      · exact absurd ‹_› (hkind _)
      · rfl
  | mark span text => cases ‹Mark› <;> first | rfl | cases hp
  | _ => rfl

/-- The next token has to be accepted. -/
theorem token {expected : List String} {accept : Token → Bool} {f : Token → Parse β}
    (hp : p.isFlat) (hacc : ∀ t, p.Spells t → accept t)
    (hf : ∀ t, p.Spells t → Takes c (f t) qs K R) :
    Takes c (expect expected accept >>= f) (p :: qs) K R := by
  intro s ts rest hts hs hrest
  obtain ⟨t, us, rfl, ht, hus⟩ := hts.cons_inv
  have hadvance := advance_of_cons hs
  obtain ⟨b, s', hrun, hb, hpast⟩ := hf t ht hus (s := s.advance) (by rw [hadvance]; rfl) hrest
  refine ⟨b, s', ?_, hb, hpast.rest, ?_, ?_⟩
  · rw [run_bind, expect_of_cons hs (hacc t ht)]
    exact hrun
  · rw [hpast.depth, hadvance]
    exact depthAfter_of_flat hp ht
  · rw [hpast.faults, advance_faults]

section

variable {f : Token → Parse β} {g : Unit → Parse β} {of : Referent} {i : Id of} {what : String}
  {value : String} {x : Int64} {b : Bool} {words : List String}

theorem keyword (hg : Takes c (g ()) qs K R) :
    Takes c (Grammar.keyword w >>= g) (.keyword w :: qs) K R := by
  have heq : Grammar.keyword w >>= g = expect [w] (·.isKeyword w) >>= fun _ => g () := by
    simp only [Grammar.keyword, discard_eq_bind, bind_assoc, pure_bind]
  rw [heq]
  refine token rfl ?_ fun t _ => hg
  rintro _ ⟨span⟩
  simp [Token.isKeyword]

theorem onlyOnce (hg : Takes c (g ()) qs K R) :
    Takes c (Grammar.keyword "only once" >>= g) (.onlyOnce :: qs) K R := by
  have heq : Grammar.keyword "only once" >>= g =
      expect ["only once"] (·.isKeyword "only once") >>= fun _ => g () := by
    simp only [Grammar.keyword, discard_eq_bind, bind_assoc, pure_bind]
  rw [heq]
  refine token rfl ?_ fun t _ => hg
  rintro _ ⟨span, text⟩
  rfl

theorem mark (hm : (Piece.mark m).isFlat) (hg : Takes c (g ()) qs K R) :
    Takes c (Grammar.mark m >>= g) (.mark m :: qs) K R := by
  have heq : Grammar.mark m >>= g = expect [m.spelling] (·.isMark m) >>= fun _ => g () := by
    simp only [Grammar.mark, discard_eq_bind, bind_assoc, pure_bind]
  rw [heq]
  refine token hm ?_ fun t _ => hg
  rintro _ ⟨span⟩
  simp [Token.isMark]

theorem word (hi : i.Writable)
    (hf : ∀ span, Takes c (f ⟨.ofWord i.name.toList, span, i.name⟩) qs K R) :
    Takes c (Grammar.word what >>= f) (.word i.name :: qs) K R := by
  refine token rfl ?_ ?_
  · rintro _ ⟨span⟩
    exact hi.isWord
  · intro t ht
    cases ht with
    | word span => exact hf span

/-- A reserved word where the grammar has an id. -/
theorem reserved (hf : ∀ span, Takes c (f ⟨.keyword w, span, w⟩) qs K R) :
    Takes c (Grammar.word what >>= f) (.keyword w :: qs) K R := by
  refine token rfl ?_ ?_
  · rintro _ ⟨span⟩
    rfl
  · intro t ht
    cases ht with
    | keyword span => exact hf span

theorem string (hf : ∀ span text, Takes c (f ⟨.string value, span, text⟩) qs K R) :
    Takes c (Grammar.string >>= f) (.string value :: qs) K R := by
  refine token rfl ?_ ?_
  · rintro _ ⟨span, text⟩
    rfl
  · intro t ht
    cases ht with
    | string span text => exact hf span text

theorem quoted (hf : ∀ span text, Takes c (f ⟨.string value, span, text⟩) qs K R) :
    Takes c (Grammar.wordOrString what >>= f) (.string value :: qs) K R := by
  refine token rfl ?_ ?_
  · rintro _ ⟨span, text⟩
    rfl
  · intro t ht
    cases ht with
    | string span text => exact hf span text

theorem boolean (hf : ∀ span text, Takes c (f ⟨.boolean b, span, text⟩) qs K R) :
    Takes c (Grammar.boolean >>= f) (.boolean b :: qs) K R := by
  refine token rfl ?_ ?_
  · rintro _ ⟨span, text⟩
    cases b <;> rfl
  · intro t ht
    cases ht with
    | boolean span text => exact hf span text

theorem oneOf (hw : words.contains w)
    (hf : ∀ span, Takes c (f ⟨.keyword w, span, w⟩) qs K R) :
    Takes c (Grammar.oneOf words >>= f) (.keyword w :: qs) K R := by
  refine token rfl ?_ ?_
  · rintro _ ⟨span⟩
    exact Token.isOneOf_iff.mpr ⟨w, by simpa using hw, rfl⟩
  · intro t ht
    cases ht with
    | keyword span => exact hf span

theorem number (hf : ∀ span, Takes c (f (.ofNumber x span)) qs K R) :
    Takes c (Grammar.number >>= f) (.number x :: qs) K R := by
  intro s ts rest hts hs hrest
  obtain ⟨t, us, rfl, ht, hus⟩ := hts.cons_inv
  cases ht with
  | number span =>
      have hadvance := advance_of_cons hs
      obtain ⟨b, s', hrun, hb, hpast⟩ := hf span hus (s := s.advance) (by rw [hadvance]; rfl) hrest
      refine ⟨b, s', ?_, hb, hpast.rest, ?_, ?_⟩
      · rw [run_bind, run_number, hs]
        simpa [Token.ofNumber, Text.Integer.word?_numeral] using hrun
      · rw [hpast.depth, hadvance]
        rfl
      · rw [hpast.faults, advance_faults]

end

/-! ## Looking ahead -/

section

variable {g : Bool → Parse β} {b : Bool}

theorem look (f : List Token → Bool)
    (hf : ∀ ⦃ts rest⦄, Spelled ps ts → K rest → f (ts ++ rest) = b)
    (hg : Takes c (g b) ps K R) : Takes c (looking f >>= g) ps K R := by
  intro s ts rest hts hs hrest
  obtain ⟨a, s', hrun, ha, hpast⟩ := hg hts hs hrest
  refine ⟨a, s', ?_, ha, hpast⟩
  rw [run_bind, run_looking, hs, hf hts hrest]
  exact hrun

theorem lookFirst {test : Token → Bool} (hb : Begins ps K test b) (hg : Takes c (g b) ps K R) :
    Takes c (looking (fun r => r[0]?.any test) >>= g) ps K R :=
  look _ (fun _ _ hts hrest => hb hts hrest) hg

theorem eatWhen {f : List Token → Bool} (hp : p.isFlat)
    (hf : ∀ ⦃ts rest⦄, Spelled (p :: qs) ts → K rest → f (ts ++ rest))
    (hg : Takes c (g true) qs K R) : Takes c (Grammar.eatWhen f >>= g) (p :: qs) K R := by
  intro s ts rest hts hs hrest
  have hfound := hf hts hrest
  obtain ⟨t, us, rfl, ht, hus⟩ := hts.cons_inv
  have hadvance := advance_of_cons hs
  obtain ⟨b, s', hrun, hb, hpast⟩ := hg hus (s := s.advance) (by rw [hadvance]; rfl) hrest
  refine ⟨b, s', ?_, hb, hpast.rest, ?_, ?_⟩
  · rw [run_bind, run_eatWhen, hs, if_pos hfound]
    exact hrun
  · rw [hpast.depth, hadvance]
    exact depthAfter_of_flat hp ht
  · rw [hpast.faults, advance_faults]

theorem notEatWhen {f : List Token → Bool}
    (hf : ∀ ⦃ts rest⦄, Spelled ps ts → K rest → f (ts ++ rest) = false)
    (hg : Takes c (g false) ps K R) : Takes c (Grammar.eatWhen f >>= g) ps K R := by
  intro s ts rest hts hs hrest
  obtain ⟨a, s', hrun, ha, hpast⟩ := hg hts hs hrest
  refine ⟨a, s', ?_, ha, hpast⟩
  rw [run_bind, run_eatWhen, hs, hf hts hrest]
  exact hrun

theorem eat {test : Token → Bool} (hp : p.isFlat) (htest : ∀ t, p.Spells t → test t)
    (hg : Takes c (g true) qs K R) :
    Takes c (Grammar.eatWhen (fun r => r[0]?.any test) >>= g) (p :: qs) K R :=
  eatWhen hp (fun _ _ hts hrest => Begins.cons htest hts hrest) hg

theorem leave {test : Token → Bool} (hb : Begins ps K test false) (hg : Takes c (g false) ps K R) :
    Takes c (Grammar.eatWhen (fun r => r[0]?.any test) >>= g) ps K R :=
  notEatWhen (fun _ _ hts hrest => hb hts hrest) hg

theorem atKeyword (hg : Takes c (g true) (.keyword w :: qs) K R) :
    Takes c (Grammar.atKeyword w >>= g) (.keyword w :: qs) K R := by
  refine lookFirst (Begins.cons ?_) hg
  rintro _ ⟨⟩
  simp [Token.isKeyword]

theorem notAtKeyword (hb : Begins ps K (·.isKeyword w) false) (hg : Takes c (g false) ps K R) :
    Takes c (Grammar.atKeyword w >>= g) ps K R :=
  lookFirst hb hg

theorem eatKeyword (hg : Takes c (g true) qs K R) :
    Takes c (Grammar.eatKeyword w >>= g) (.keyword w :: qs) K R := by
  refine eat rfl ?_ hg
  rintro _ ⟨⟩
  simp [Token.isKeyword]

theorem notEatKeyword (hb : Begins ps K (·.isKeyword w) false) (hg : Takes c (g false) ps K R) :
    Takes c (Grammar.eatKeyword w >>= g) ps K R :=
  leave hb hg

theorem atOneOf {words : List String} (hb : Begins ps K (·.isOneOf words) b)
    (hg : Takes c (g b) ps K R) : Takes c (Grammar.atOneOf words >>= g) ps K R :=
  lookFirst hb hg

theorem atMark (hb : Begins ps K (·.isMark m) b) (hg : Takes c (g b) ps K R) :
    Takes c (Grammar.atMark m >>= g) ps K R :=
  lookFirst hb hg

theorem eatMark (hm : (Piece.mark m).isFlat) (hg : Takes c (g true) qs K R) :
    Takes c (Grammar.eatMark m >>= g) (.mark m :: qs) K R := by
  refine eat hm ?_ hg
  rintro _ ⟨⟩
  simp [Token.isMark]

theorem notEatMark (hb : Begins ps K (·.isMark m) false) (hg : Takes c (g false) ps K R) :
    Takes c (Grammar.eatMark m >>= g) ps K R :=
  leave hb hg

end

/-! ## Telling what comes by its first word -/

section

variable {g : Bool → Parse β} {w' : String} {words : List String}

theorem lookFirst_iff {test : Token → Bool} {b : Bool} (hb : Begins ps K test b) :
    Takes c (looking (fun r => r[0]?.any test) >>= g) ps K R ↔ Takes c (g b) ps K R := by
  refine ⟨fun h s ts rest hts hs hrest => ?_, lookFirst hb⟩
  obtain ⟨a, s', hrun, ha, hpast⟩ := h hts hs hrest
  refine ⟨a, s', ?_, ha, hpast⟩
  rw [run_bind, run_looking, hs, hb hts hrest] at hrun
  exact hrun

theorem run_atKeyword (h : Without (·.isKeyword w) s.rest) :
    (Grammar.atKeyword w >>= g) c s = g false c s := by
  change (looking (fun r => r[0]?.any (·.isKeyword w)) >>= g) c s = _
  rw [run_bind, run_looking, h]

theorem atKeyword_cons : Takes c (Grammar.atKeyword w >>= g) (.keyword w' :: ps) K R ↔
    Takes c (g (decide (w' = w))) (.keyword w' :: ps) K R := by
  refine lookFirst_iff (Begins.cons ?_)
  rintro _ ⟨⟩
  rfl

theorem atOneOf_cons : Takes c (Grammar.atOneOf words >>= g) (.keyword w' :: ps) K R ↔
    Takes c (g (words.contains w')) (.keyword w' :: ps) K R := by
  refine lookFirst_iff (Begins.cons ?_)
  rintro _ ⟨span⟩
  rw [Bool.eq_iff_iff, Token.isOneOf_iff]
  simp

/-- Another word than the one asked for stays. -/
theorem otherKeyword (h : w' ≠ w) (hg : Takes c (g false) (.keyword w' :: ps) K R) :
    Takes c (Grammar.eatKeyword w >>= g) (.keyword w' :: ps) K R := by
  refine notEatKeyword (Begins.cons ?_) hg
  rintro _ ⟨⟩
  simpa [Token.isKeyword] using h

end

end Takes

end Storyworld.Grammar
