import Storyworld.Proofs.Grammar.Pieces
import Storyworld.Proofs.Spelling.Takes

namespace Storyworld.Grammar

/-! Lists and blocks of things that are spelled one behind the other. -/

variable {α β : Type} {c : Context} {s s' s₁ : State} {ps qs : List Piece}
  {K K' : List Token → Prop}

/-! ## Rounds -/

/-- The rounds of a repetition: each one gives something and takes a token, and the last one gives
nothing. -/
inductive Rounds (c : Context) (step : Parse (Option α)) : State → List α → State → Prop where
  | stop {s s' : State} (h : step c s = .ok none s') : Rounds c step s [] s'
  | round {s s₁ s' : State} {a : α} {as : List α} (h : step c s = .ok (some a) s₁)
      (hl : s₁.rest.length < s.rest.length) (hmore : Rounds c step s₁ as s') :
      Rounds c step s (a :: as) s'

theorem Rounds.run_collect {step : Parse (Option α)} {as : List α} (h : Rounds c step s as s') :
    ∀ n, s.rest.length < n → collect step n c s = .ok as s' := by
  induction h with
  | stop h =>
      intro n hn
      obtain ⟨k, rfl⟩ : ∃ k, n = k + 1 := ⟨n - 1, by omega⟩
      rw [run_collect_succ, h]
  | round h hl _ ih =>
      intro n hn
      obtain ⟨k, rfl⟩ : ∃ k, n = k + 1 := ⟨n - 1, by omega⟩
      rw [run_collect_succ, h]
      simp only [ih k (by omega)]

theorem Rounds.run_many {step : Parse (Option α)} {as : List α} (h : Rounds c step s as s') :
    many step c s = .ok as s' := by
  rw [Grammar.run_many]
  exact h.run_collect _ (by omega)

/-! ## Series -/

/-- Pieces that a repetition takes in several rounds, where what follows each round is as `K` says.
What the step does may depend on how many braces are open. -/
def Series (c : Context) (step : Nat → Parse (Option α)) (ps : List Piece) (K : List Token → Prop)
    (Q : List α → Prop) : Prop :=
  ∀ ⦃s : State⦄ ⦃ts rest : List Token⦄, Spelled ps ts → s.rest = ts ++ rest → K rest →
    ∃ as s₁, s.Past rest s₁ ∧ Q as ∧
      ∀ more s', Rounds c (step s.depth) s₁ more s' → Rounds c (step s.depth) s (as ++ more) s'

namespace Series

variable {step : Nat → Parse (Option α)} {Q R : List α → Prop}

theorem nil (h : Q []) : Series c step [] K Q := by
  intro s ts rest hts hs _
  cases hts
  exact ⟨[], s, ⟨hs, rfl, rfl⟩, h, fun _ _ hmore => hmore⟩

/-- A single round. -/
theorem one {P : α → Prop} (hp : ps ≠ [])
    (h : ∀ depth, ∀ ⦃s : State⦄ ⦃ts rest : List Token⦄, s.depth = depth → Spelled ps ts →
      s.rest = ts ++ rest → K rest →
      ∃ a s', step depth c s = .ok (some a) s' ∧ P a ∧ s.Past rest s') :
    Series c step ps K fun as => ∃ a, as = [a] ∧ P a := by
  intro s ts rest hts hs hrest
  obtain ⟨a, s₁, hrun, ha, hpast⟩ := h s.depth rfl hts hs hrest
  refine ⟨[a], s₁, hpast, ⟨a, rfl, ha⟩, fun more s' hmore => .round hrun ?_ hmore⟩
  have hts' : ts ≠ [] := by
    rintro rfl
    cases hts
    exact hp rfl
  have hlength := List.length_pos_iff.mpr hts'
  rw [hpast.rest, hs, List.length_append]
  omega

/-- A single round that does not mind how many braces are open. -/
theorem once {step : Parse (Option α)} {P : α → Prop} (hp : ps ≠ [])
    (h : Takes c step ps K fun a? => ∃ a, a? = some a ∧ P a) :
    Series c (fun _ => step) ps K fun as => ∃ a, as = [a] ∧ P a := by
  refine one hp fun _ s ts rest _ hts hs hrest => ?_
  obtain ⟨_, s', hrun, ⟨a, rfl, ha⟩, hpast⟩ := h hts hs hrest
  exact ⟨a, s', hrun, ha, hpast⟩

theorem append (hp : Series c step ps K Q) (hq : Series c step qs K R)
    (hK : ∀ us rest, Spelled qs us → K rest → K (us ++ rest)) :
    Series c step (ps ++ qs) K fun as => ∃ bs cs, as = bs ++ cs ∧ Q bs ∧ R cs := by
  intro s ts rest hts hs hrest
  obtain ⟨us, vs, rfl, hus, hvs⟩ := hts.append_inv
  obtain ⟨bs, s₁, hpast, hbs, hrounds⟩ :=
    hp hus (by rw [hs, List.append_assoc]) (hK vs rest hvs hrest)
  obtain ⟨cs, s₂, hpast', hcs, hrounds'⟩ := hq hvs hpast.rest hrest
  refine ⟨bs ++ cs, s₂, hpast.trans hpast', ⟨bs, cs, rfl, hbs, hcs⟩, fun more s' hmore => ?_⟩
  rw [hpast.depth] at hrounds'
  rw [List.append_assoc]
  exact hrounds _ _ (hrounds' _ _ hmore)

theorem mono {Q' : List α → Prop} (h : Series c step ps K Q) (hQ : ∀ as, Q as → Q' as) :
    Series c step ps K Q' := by
  intro s ts rest hts hs hrest
  obtain ⟨as, s₁, hpast, has, hrounds⟩ := h hts hs hrest
  exact ⟨as, s₁, hpast, hQ as has, hrounds⟩

/-- One round for each of some things. -/
theorem each {γ : Type} {xs : List γ} {f : γ → List Piece} {N : γ → α → Prop}
    (h : ∀ x ∈ xs, Series c step (f x) K fun as => ∃ a, as = [a] ∧ N x a)
    (hK : ∀ x ∈ xs, ∀ us rest, Spelled (f x) us → K (us ++ rest)) :
    Series c step (xs.flatMap f) K fun as => List.Forall₂ N xs as := by
  induction xs with
  | nil => exact nil .nil
  | cons x xs ih =>
      have hmore := ih (fun y hy => h y (by simp [hy])) fun y hy => hK y (by simp [hy])
      rw [List.flatMap_cons]
      refine ((h x (by simp)).append hmore fun us rest hus hrest => ?_).mono ?_
      · cases xs with
        | nil =>
            cases hus
            exact hrest
        | cons y ys =>
            rw [List.flatMap_cons] at hus
            obtain ⟨vs, ws, rfl, hvs, -⟩ := hus.append_inv
            rw [List.append_assoc]
            exact hK y (by simp) vs _ hvs
      · rintro as ⟨bs, cs, rfl, ⟨a, rfl, ha⟩, hcs⟩
        exact .cons ha hcs

/-- The end of a repetition that takes no token at its end. -/
theorem many {step : Parse (Option α)} (h : Series c (fun _ => step) ps K Q)
    (hstop : ∀ s, K' s.rest → K s.rest ∧ step c s = .ok none s) :
    Takes c (Grammar.many step) ps K' Q := by
  intro s ts rest hts hs hrest
  obtain ⟨as, s₁, hpast, has, hrounds⟩ := h hts hs (hstop { s with rest } hrest).1
  have hend : step c s₁ = .ok none s₁ := (hstop s₁ (by rw [hpast.rest]; exact hrest)).2
  refine ⟨as, s₁, ?_, has, hpast⟩
  simpa using (hrounds [] s₁ (.stop hend)).run_many

end Series

/-! ## Lists with commas -/

section

variable {γ : Type} {item : Parse α} {f : γ → List Piece} {N : γ → α → Prop} {x : γ} {xs : List γ}

/-- Items with commas between them, where what follows an item is as `K` says. -/
theorem Takes.commaSeparated {g : List Token → Bool}
    (hitem : ∀ y ∈ x :: xs, Takes c item (f y) K (N y))
    (hgo : ∀ y ∈ xs, ∀ ts rest, Spelled (.mark .comma :: f y) ts →
      g (ts ++ rest) ∧ K (ts ++ rest))
    (hstop : ∀ rest, K' rest → K rest ∧ (rest[0]?.any (·.isMark .comma) && g rest) = false) :
    Takes c (Grammar.commaSeparated item (looking g)) (Piece.commas f (x :: xs)) K'
      (List.Forall₂ N (x :: xs)) := by
  rw [Grammar.commaSeparated, Composed.commaStep_eq]
  have hround : ∀ y ∈ xs, Series c (fun _ => do
      if ← Grammar.eatWhen fun r => r[0]?.any (·.isMark .comma) && g r then some <$> item
      else return none) (.mark .comma :: f y) K fun as => ∃ a, as = [a] ∧ N y a := by
    refine fun y hy => Series.once (by simp) <| Takes.eatWhen rfl (fun ts rest hts _ => ?_) ?_
    · have hg := (hgo y hy _ rest hts).1
      rw [hts.mark_isMark rfl]
      simpa using hg
    · exact (hitem y (by simp [hy])).map fun a ha => ⟨a, rfl, ha⟩
  have hmany := (Series.each hround fun y hy us rest hus => (hgo y hy us rest hus).2).many
    fun s (hs : K' s.rest) => ?_
  · refine (hitem x (by simp)).bind (fun first hfirst => hmany.map fun more hmore => ?_) ?_
    · exact .cons hfirst hmore
    · intro us rest hus hrest
      cases xs with
      | nil =>
          cases hus
          exact (hstop rest hrest).1
      | cons y ys =>
          rw [List.flatMap_cons] at hus
          obtain ⟨vs, ws, rfl, hvs, -⟩ := hus.append_inv
          rw [List.append_assoc]
          exact (hgo y (by simp) vs _ hvs).2
  · obtain ⟨hK, hg⟩ := hstop _ hs
    refine ⟨hK, ?_⟩
    rw [run_bind, run_eatWhen, hg]
    rfl

/-- A closing parenthesis follows. -/
def Closes (rest : List Token) : Prop :=
  rest[0]?.any (·.isMark .closeParen)

theorem closes_append {us rest : List Token} (h : Spelled (.mark .closeParen :: qs) us) :
    Closes (us ++ rest) := by
  obtain ⟨t, vs, rfl, ht, -⟩ := h.cons_inv
  cases ht
  simp [Closes, Token.isMark]

/-- Items up to a closing parenthesis. -/
theorem Takes.commaSeparatedAll (hitem : ∀ y ∈ x :: xs, Takes c item (f y) K (N y))
    (hcomma : ∀ y ∈ xs, ∀ ts rest, Spelled (.mark .comma :: f y) ts → K (ts ++ rest))
    (hclose : ∀ t rest, t.isMark .closeParen → K (t :: rest)) :
    Takes c (Grammar.commaSeparated item (return true)) (Piece.commas f (x :: xs)) Closes
      (List.Forall₂ N (x :: xs)) := by
  refine Takes.commaSeparated (g := fun _ => true) hitem
    (fun y hy ts rest hts => ⟨rfl, hcomma y hy ts rest hts⟩) fun rest hrest => ?_
  obtain ⟨t, rest, rfl⟩ : ∃ t us, rest = t :: us := by
    cases rest with
    | nil => simp [Closes] at hrest
    | cons t us => exact ⟨t, us, rfl⟩
  have hmark : t.isMark .closeParen := by simpa [Closes] using hrest
  exact ⟨hclose t rest hmark, by simp [Token.isMark, Token.isMark_iff.mp hmark]⟩

/-- Items in parentheses with commas between them. -/
theorem Takes.parenthesized (hitem : ∀ y ∈ x :: xs, Takes c item (f y) K (N y))
    (hcomma : ∀ y ∈ xs, ∀ ts rest, Spelled (.mark .comma :: f y) ts → K (ts ++ rest))
    (hclose : ∀ t rest, t.isMark .closeParen → K (t :: rest)) (hx : f x ≠ [])
    (hopen : Begins (f x) Anything (·.isMark .closeParen) false) :
    Takes c (Grammar.parenthesized item) (Piece.parens (Piece.commas f (x :: xs))) K'
      (List.Forall₂ N (x :: xs)) := by
  refine Takes.mark rfl (Takes.atMark (b := false) ?_ ?_)
  · rw [Piece.commas, List.append_assoc]
    exact .append (fun _ => hopen) fun h => absurd h hx
  · refine (Takes.commaSeparatedAll hitem hcomma hclose).bind
      (fun as has => Takes.mark rfl (.done has)) fun us rest hus _ => closes_append hus

end

/-! ## Blocks -/

theorem run_mark {m : Mark} {t : Token} {rest : List Token} (hs : s.rest = t :: rest)
    (ht : t.isMark m) : mark m c s = .ok () s.advance := by
  simp [mark, discard_eq_bind, run_bind, expect_of_cons hs ht]

/-- A block takes what its rounds take, and the braces around it. -/
theorem run_block_of_rounds {starters : List String} {statement : Parse Node} {o u : Token}
    {us rest : List Token} {nss : List (List Node)} (hs : s.rest = o :: us)
    (ho : o.isMark .openBrace) (hu : u.isMark .closeBrace) (hpast : s.advance.Past (u :: rest) s₁)
    (hrounds : ∀ more s', Rounds c (round s.advance.depth starters statement) s₁ more s' →
      Rounds c (round s.advance.depth starters statement) s.advance (nss ++ more) s') :
    ∃ s', block starters statement c s = .ok nss.flatten s' ∧ s.Past rest s' := by
  have hdepth : s.advance.depth = s.depth + 1 := by
    rw [advance_of_cons hs]
    simp [depthAfter, Token.isMark_iff.mp ho]
  have hclose := advance_of_cons hpast.rest
  have hstop : round s.advance.depth starters statement c s₁ = .ok none s₁.advance :=
    (RoundDerivation.closes (by rw [hpast.depth]; omega) hpast.rest hu).execution
  have hmany := (hrounds [] s₁.advance (.stop hstop)).run_many
  refine ⟨s₁.advance, ?_, ?_, ?_, ?_⟩
  · have hmark := run_mark (c := c) (m := .openBrace) hs ho
    have hbraces : braceDepth c s.advance = .ok s.advance.depth s.advance := rfl
    rw [List.append_nil] at hmany
    rw [block_eq, run_bind, hmark]
    simp only [run_bind, hbraces, hmany]
    rfl
  · rw [hclose]
  · rw [hclose]
    simp [depthAfter, Token.isMark_iff.mp hu, hpast.depth, hdepth]
  · rw [advance_faults, hpast.faults, advance_faults]

/-- What can follow a statement of a block: another one, or the end of the block. -/
def EndsIn (starters : List String) (rest : List Token) : Prop :=
  rest[0]?.any fun t => t.isMark .closeBrace || t.isOneOf starters

namespace EndsIn

variable {starters : List String} {rest : List Token} {test : Token → Bool} {w : String} {m : Mark}

theorem without (h : EndsIn starters rest) (hc : ∀ t, t.isMark .closeBrace → test t = false)
    (hs : ∀ t, t.isOneOf starters → test t = false) : Without test rest := by
  cases rest with
  | nil => simp [EndsIn] at h
  | cons t rest =>
      have ht : t.isMark .closeBrace ∨ t.isOneOf starters := by simpa [EndsIn] using h
      rcases ht with ht | ht
      · simpa [Without] using hc t ht
      · simpa [Without] using hs t ht

theorem notKeyword (h : EndsIn starters rest) (hw : w ∉ starters) :
    Without (·.isKeyword w) rest := by
  refine h.without (fun _ => Token.isKeyword_of_isMark) fun t ht => ?_
  obtain ⟨k, hk, hkind⟩ := Token.isOneOf_iff.mp ht
  simp only [Token.isKeyword, hkind, decide_eq_false_iff_not]
  rintro rfl
  exact hw hk

theorem notMark (h : EndsIn starters rest) (hm : m ≠ .closeBrace) : Without (·.isMark m) rest := by
  refine h.without (fun t ht => ?_) fun _ => Token.isMark_of_isOneOf
  have hkind := Token.isMark_iff.mp ht
  simp [Token.isMark, hkind, hm.symm]

end EndsIn

/-- Pieces that a block takes statement by statement; the nodes of the statements together satisfy
`N`. -/
structure Clauses (c : Context) (starters : List String) (statement : Parse Node) (ps : List Piece)
    (N : List Node → Prop) : Prop where
  series : Series c (fun depth => round depth starters statement) ps (EndsIn starters)
    fun nss => N nss.flatten
  joins : ∀ ts rest, Spelled ps ts → EndsIn starters rest → EndsIn starters (ts ++ rest)

namespace Clauses

variable {starters : List String} {statement : Parse Node} {N M : List Node → Prop}

theorem nil (h : N []) : Clauses c starters statement [] N := by
  refine ⟨.nil h, fun ts rest hts hrest => ?_⟩
  cases hts
  exact hrest

theorem append (hp : Clauses c starters statement ps N) (hq : Clauses c starters statement qs M) :
    Clauses c starters statement (ps ++ qs) fun ns => ∃ ks ms, ns = ks ++ ms ∧ N ks ∧ M ms := by
  constructor
  · refine (hp.series.append hq.series hq.joins).mono ?_
    rintro nss ⟨kss, mss, rfl, hks, hms⟩
    exact ⟨kss.flatten, mss.flatten, List.flatten_append, hks, hms⟩
  · intro ts rest hts hrest
    obtain ⟨us, vs, rfl, hus, hvs⟩ := hts.append_inv
    rw [List.append_assoc]
    exact hp.joins us _ hus (hq.joins vs rest hvs hrest)

theorem mono (h : Clauses c starters statement ps N) (hN : ∀ ns, N ns → M ns) :
    Clauses c starters statement ps M :=
  ⟨h.series.mono fun _ => hN _, h.joins⟩

/-- A single statement. -/
theorem one {P : Node → Prop} (hstart : Piece.startWith starters ps)
    (h : Takes c statement ps (EndsIn starters) P) :
    Clauses c starters statement ps fun ns => ∃ n, ns = [n] ∧ P n := by
  constructor
  · refine (Series.one (P := fun ns => ∃ n, ns = [n] ∧ P n) (Piece.ne_nil_of_startWith hstart)
      ?_).mono ?_
    · intro depth s ts rest hdepth hts hs hrest
      obtain ⟨n, s', hrun, hn, hpast⟩ := h hts hs hrest
      obtain ⟨t, us, rfl, ht⟩ := hts.isOneOf_head hstart
      have hround : round depth starters statement c s = .ok (some [n]) s' :=
        (RoundDerivation.reads (by omega) hs (Token.isMark_of_isOneOf ht) hrun).execution
      exact ⟨[n], s', hround, ⟨n, rfl, hn⟩, hpast⟩
    · rintro nss ⟨_, rfl, n, rfl, hn⟩
      exact ⟨n, rfl, hn⟩
  · intro ts rest hts _
    obtain ⟨t, us, rfl, ht⟩ := hts.isOneOf_head hstart
    simp [EndsIn, ht]

/-- One statement for each of some things. -/
theorem each {γ : Type} {xs : List γ} {f : γ → List Piece} {P : γ → Node → Prop}
    (hstart : ∀ x ∈ xs, Piece.startWith starters (f x))
    (h : ∀ x ∈ xs, Takes c statement (f x) (EndsIn starters) (P x)) :
    Clauses c starters statement (xs.flatMap f) (List.Forall₂ P xs) := by
  induction xs with
  | nil => exact nil .nil
  | cons x xs ih =>
      rw [List.flatMap_cons]
      have hmore := ih (fun y hy => hstart y (by simp [hy])) fun y hy => h y (by simp [hy])
      refine ((one (hstart x (by simp)) (h x (by simp))).append hmore).mono ?_
      rintro ns ⟨_, ms, rfl, ⟨n, rfl, hn⟩, hms⟩
      exact .cons hn hms

/-- A block takes its statements and the braces around them. -/
theorem block (h : Clauses c starters statement ps N) :
    Takes c (Grammar.block starters statement) (Piece.braces ps) K N := by
  intro s ts rest hts hs _
  obtain ⟨t, us, rfl, ht, hus⟩ := Spelled.cons_inv hts
  obtain ⟨vs, ws, rfl, hvs, hws⟩ := hus.append_inv
  obtain ⟨u, _, rfl, hu, hnil⟩ := hws.cons_inv
  cases hnil
  cases ht with
  | mark span text =>
  cases hu with
  | mark span' text' =>
  have hrest : s.advance.rest = vs ++ ⟨.mark .closeBrace, span', text'⟩ :: rest := by
    rw [advance_of_cons hs]
    simp
  have hend : EndsIn starters (⟨.mark .closeBrace, span', text'⟩ :: rest) := by
    simp [EndsIn, Token.isMark]
  obtain ⟨nss, s₁, hpast, hN, hrounds⟩ := h.series hvs hrest hend
  obtain ⟨s', hrun, hpast'⟩ :=
    run_block_of_rounds hs (by simp [Token.isMark]) (by simp [Token.isMark]) hpast hrounds
  exact ⟨nss.flatten, s', hrun, hN, hpast'⟩

end Clauses

end Storyworld.Grammar
