import Storyworld.Proofs.Grammar.Patience
import Storyworld.Proofs.Laying.Triggers

namespace Storyworld.Grammar

/-! Reading with another number of levels. Where a parser reads without a fault, one that differs from
it only in its levels reads the same, or the first fault it finds is that groups and schedules lie too
deep. -/

/-- The faults known where reading ends, with the one that ended it last. -/
def found {α : Type} : EStateM.Result SyntaxFault State α → List SyntaxFault
  | .ok _ s => s.faults
  | .error fault s => s.faults ++ [fault]

/-- Behind `earlier` faults the first one found is that there are no more levels. -/
def Exhausted {α : Type} (limit : Nat) (earlier : List SyntaxFault)
    (r : EStateM.Result SyntaxFault State α) : Prop :=
  ∃ span, earlier ++ [⟨.nestingTooDeep limit, span⟩] <+: found r

/-- Where `p` reads without a fault, its result satisfies `Q`, and `q` reads the same or comes to the
end of its levels. It can do so only where the result is `deep` and at least `far` tokens are left. -/
structure Follows (c c' : Context) (far : Nat) (k : Bool) {α : Type} (Q deep : α → Prop)
    (p q : Parse α) : Prop where
  left : Advances k p
  right : Advances k q
  run : ∀ {s a s'}, Clean p c s a s' → Q a ∧ (Clean q c' s a s' ∨
    deep a ∧ far ≤ s.rest.length ∧ Exhausted c'.settings.maxNesting s.faults (q c' s))

variable {c c' : Context} {far : Nat} {k j : Bool} {α β : Type} {p q : Parse α}
  {f g : α → Parse β} {Q d : α → Prop} {R D : β → Prop} {s s' : State} {limit : Nat}

/-! ## The end of the levels -/

namespace Exhausted

variable {earlier : List SyntaxFault} {r : EStateM.Result SyntaxFault State α}
  {r' : EStateM.Result SyntaxFault State β}

/-- What is found later comes behind what was found first. -/
theorem mono (h : Exhausted limit earlier r) (hr : found r <+: found r') :
    Exhausted limit earlier r' := by
  obtain ⟨span, hspan⟩ := h
  exact ⟨span, hspan.trans hr⟩

end Exhausted

theorem Advances.found_starts (hp : Advances k p) : s.faults <+: found (p c s) := by
  cases h : p c s with
  | ok a s' => exact (hp.ok h).faults
  | error fault s' => exact (hp.error h).faults.trans (List.prefix_append _ _)

/-- What a parser finds is found by everything that begins with it. -/
theorem found_bind (hf : ∀ a, Advances k (f a)) : found (p c s) <+: found ((p >>= f) c s) := by
  rw [run_bind]
  cases p c s with
  | ok a s' => exact (hf a).found_starts
  | error fault s' => exact List.prefix_rfl

namespace Follows

/-! ## Results -/

theorem done {a : α} (h : Q a) : Follows c c' far false Q d (pure a) (pure a) := by
  refine ⟨.pure a, .pure a, fun hp => ?_⟩
  have hrun := hp.run
  cases hrun
  exact ⟨h, .inl ⟨rfl, rfl⟩⟩

/-- A parser that never succeeds. -/
theorem never {γ : Context → State → SyntaxFault} (hq : Advances k q)
    (h : ∀ c s, p c s = .error (γ c s) s) : Follows c c' far k Q d p q := by
  refine ⟨.fails h, hq, fun hp => ?_⟩
  have hrun := hp.run
  rw [h] at hrun
  cases hrun

theorem fails {γ : Context → State → SyntaxFault} (h : ∀ c s, p c s = .error (γ c s) s) :
    Follows c c' far k Q d p p :=
  never (.fails h) h

/-- Parsers without levels go by no settings. -/
theorem same {pre : List Element} {e : α → List Element} (h : Lays k pre e p) :
    Follows c c' far k (fun _ => True) d p p :=
  ⟨h.advances, h.advances, fun hp => ⟨trivial, .inl (h.heedless _ _ _ _ _ hp)⟩⟩

theorem mono {Q' d' : α → Prop} {far' : Nat} (h : Follows c c' far k Q d p q)
    (hfar : far' ≤ far) (hQ : ∀ a, Q a → Q' a) (hd : ∀ a, Q a → d a → d' a) :
    Follows c c' far' k Q' d' p q := by
  refine ⟨h.left, h.right, fun hp => ?_⟩
  obtain ⟨ha, hclean | ⟨hdeep, hlen, hfound⟩⟩ := h.run hp
  · exact ⟨hQ _ ha, .inl hclean⟩
  · exact ⟨hQ _ ha, .inr ⟨hd _ ha hdeep, hfar.trans hlen, hfound⟩⟩

theorem forget (h : Follows c c' far k Q d p q) : Follows c c' far k (fun _ => True) d p q :=
  h.mono (Nat.le_refl _) (fun _ _ => trivial) fun _ _ hd => hd

theorem weaken (h : Follows c c' far true Q d p q) : Follows c c' far k Q d p q :=
  ⟨h.left.weaken fun _ => rfl, h.right.weaken fun _ => rfl, h.run⟩

/-! ## Sequences -/

/-- One parser behind another. Whatever is deep in the first result is deep in the last one. A
parser that takes a token leaves one token less to what follows. -/
theorem bindBy {far' : Nat} {tp : Bool} (hp : Follows c c' far' tp Q d p q)
    (hf : ∀ a, Follows c c' far k (fun b => Q a → R b ∧ (d a → D b)) (fun b => Q a → D b)
      (f a) (g a))
    (hfar : far' ≤ far + tp.toNat) (hj : j → tp || k) :
    Follows c c' far' j R D (p >>= f) (q >>= g) := by
  refine ⟨(hp.left.bind fun a => (hf a).left).weaken hj,
    (hp.right.bind fun a => (hf a).right).weaken hj, fun {s b s''} h => ?_⟩
  obtain ⟨a, s', hps, hfs⟩ := h.of_bind hp.left fun a => (hf a).left
  obtain ⟨ha, hfirst⟩ := hp.run hps
  obtain ⟨hR, hsecond⟩ := (hf a).run hfs
  refine ⟨(hR ha).1, ?_⟩
  rcases hfirst with hclean | ⟨hd, hlen, hfound⟩
  · rcases hsecond with hclean' | ⟨hd, hlen, hfound⟩
    · exact .inl (hclean.bind hclean')
    · have hle := (hp.left.ok hps.run).rest.length_le
      have hlt := hp.left.shorter hps.run
      refine .inr ⟨hd ha, ?_, ?_⟩
      · cases tp with
        | false =>
            simp only [Bool.toNat_false] at hfar
            omega
        | true =>
            have hlt := hlt rfl
            simp only [Bool.toNat_true] at hfar
            omega
      · have hsame : (q >>= g) c' s = g a c' s' := by rw [run_bind, hclean.run]
        rwa [hsame, ← hps.faults]
  · exact .inr ⟨(hR ha).2 hd, hlen, hfound.mono (found_bind fun a => (hf a).right)⟩

theorem bind (hp : Follows c c' far false Q d p q)
    (hf : ∀ a, Follows c c' far k (fun b => Q a → R b ∧ (d a → D b)) (fun b => Q a → D b)
      (f a) (g a)) :
    Follows c c' far k R D (p >>= f) (q >>= g) :=
  hp.bindBy hf (Nat.le_refl _) fun hk => hk

theorem andThen (hp : Follows c c' far true Q d p q)
    (hf : ∀ a, Follows c c' far false (fun b => Q a → R b ∧ (d a → D b)) (fun b => Q a → D b)
      (f a) (g a)) :
    Follows c c' far k R D (p >>= f) (q >>= g) :=
  hp.bindBy hf (Nat.le_succ _) fun _ => rfl

section

variable {pre : List Element} {e : α → List Element}

/-- Something behind a parser without levels. -/
theorem past (hp : Lays false pre e p) (hf : ∀ a, Follows c c' far k R D (f a) (g a)) :
    Follows c c' far k R D (p >>= f) (p >>= g) :=
  bind (same (d := fun _ => False) hp) fun a =>
    (hf a).mono (Nat.le_refl _) (fun _ h _ => ⟨h, False.elim⟩) fun _ _ h _ => h

theorem pastToken (hp : Lays true pre e p) (hf : ∀ a, Follows c c' far false R D (f a) (g a)) :
    Follows c c' far k R D (p >>= f) (p >>= g) :=
  andThen (same (d := fun _ => False) hp) fun a =>
    (hf a).mono (Nat.le_refl _) (fun _ h _ => ⟨h, False.elim⟩) fun _ _ h _ => h

/-- Behind a token there is one token less. -/
theorem deeper (hp : Lays true pre e p) (hf : ∀ a, Follows c c' far false R D (f a) (g a)) :
    Follows c c' (far + 1) k R D (p >>= f) (p >>= g) :=
  bindBy (same (d := fun _ => False) hp)
    (fun a => (hf a).mono (Nat.le_refl _) (fun _ h _ => ⟨h, False.elim⟩) fun _ _ h _ => h)
    (Nat.le_refl _) fun _ => rfl

end

theorem map {γ : α → β} (hp : Follows c c' far k Q d p q) (hR : ∀ a, Q a → R (γ a))
    (hD : ∀ a, Q a → d a → D (γ a)) : Follows c c' far k R D (γ <$> p) (γ <$> q) :=
  hp.bindBy (k := false) (fun a => done fun ha => ⟨hR a ha, hD a ha⟩) (Nat.le_add_right _ _)
    fun hk => by simp [hk]

theorem ite {b : Prop} [Decidable b] {p' q' : Parse α} (hp : Follows c c' far k Q d p q)
    (hp' : Follows c c' far k Q d p' q') :
    Follows c c' far k Q d (if b then p else p') (if b then q else q') := by
  split
  · exact hp
  · exact hp'

theorem nodeBy {parts parts' : Parse (Rule × List Element)} {Q d : Rule × List Element → Prop}
    {N D : Node → Prop} (hp : Follows c c' far true Q d parts parts')
    (hN : ∀ r span cs, Q (r, cs) → N (.mk r span cs))
    (hD : ∀ r span cs, Q (r, cs) → d (r, cs) → D (.mk r span cs)) :
    Follows c c' far k N D (Grammar.nodeBy parts) (Grammar.nodeBy parts') := by
  refine ⟨hp.left.node.weaken fun _ => rfl, hp.right.node.weaken fun _ => rfl, fun {s n s'} h => ?_⟩
  obtain ⟨r, cs, rfl, hparts⟩ := h.of_node
  obtain ⟨hQ, hclean | ⟨hdeep, hlen, hfound⟩⟩ := hp.run hparts
  · have hplace : s.place c = s.place c' := by
      cases hr : s.rest with
      | nil =>
          have hlt := hp.left.shorter hparts.run rfl
          simp [hr] at hlt
      | cons t rest => simp [State.place, hr]
    rw [hplace]
    exact ⟨hN _ _ _ hQ, .inl hclean.node⟩
  · refine ⟨hN _ _ _ hQ, .inr ⟨hD _ _ _ hQ hdeep, hlen, hfound.mono ?_⟩⟩
    rw [run_nodeBy]
    cases parts' c' s <;> exact List.prefix_rfl

/-! ## Lists -/

section

variable {step step' : Parse (Option α)}

theorem collect (h : Follows c c' far false (fun _ => True) (fun a? => ∃ a ∈ a?, d a) step step')
    (n : Nat) :
    Follows c c' far false (fun _ => True) (fun as => ∃ a ∈ as, d a) (Grammar.collect step n)
      (Grammar.collect step' n) := by
  induction n with
  | zero => exact done trivial
  | succ n ih =>
      apply bind h
      intro a?
      cases a? with
      | none => exact done fun _ => ⟨trivial, by simp⟩
      | some a =>
          have hmap : Follows c c' far false
              (fun as => True → True ∧ ((∃ b ∈ some a, d b) → ∃ b ∈ as, d b))
              (fun as => True → ∃ b ∈ as, d b) (List.cons a <$> Grammar.collect step n)
              (List.cons a <$> Grammar.collect step' n) := by
            refine ih.map (fun as _ _ => ⟨trivial, ?_⟩) fun as _ hdeep _ => ?_
            · rintro ⟨b, hb, hdb⟩
              cases hb
              exact ⟨a, List.mem_cons_self, hdb⟩
            · obtain ⟨b, hb, hdb⟩ := hdeep
              exact ⟨b, List.mem_cons_of_mem _ hb, hdb⟩
          exact hmap

theorem many (h : Follows c c' far false (fun _ => True) (fun a? => ∃ a ∈ a?, d a) step step') :
    Follows c c' far false (fun _ => True) (fun as => ∃ a ∈ as, d a) (Grammar.many step)
      (Grammar.many step') := by
  refine ⟨h.left.many, h.right.many, fun {s as s'} hp => ?_⟩
  have hcollect : Clean (Grammar.collect step (s.rest.length + 1)) c s as s' :=
    ⟨(run_many step).symm.trans hp.run, hp.faults⟩
  obtain ⟨-, hclean | hdeep⟩ := (h.collect _).run hcollect
  · exact ⟨trivial, .inl ⟨(run_many step').trans hclean.run, hclean.faults⟩⟩
  · rw [← run_many step'] at hdeep
    exact ⟨trivial, .inr hdeep⟩

end

theorem commaSeparated {item item' : Parse α}
    (hi : Follows c c' far true (fun _ => True) d item item') :
    Follows c c' far k (fun _ => True) (fun as => ∃ a ∈ as, d a)
      (Grammar.commaSeparated item (return true)) (Grammar.commaSeparated item' (return true)) := by
  have hnext : Follows c c' far false (fun _ => True) (fun a? : Option α => ∃ a ∈ a?, d a)
      (do if (← atMark .comma) && (← pure true) then
            advance
            return some (← item)
          else return none)
      (do if (← atMark .comma) && (← pure true) then
            advance
            return some (← item')
          else return none) := by
    apply past (Lays.atMark _)
    intro comma
    apply past (Lays.done (e := fun _ => []) rfl)
    intro continues
    apply ite
    · apply past Lays.advance
      intro _
      exact hi.weaken.map (fun _ _ => trivial) fun a _ ha => ⟨a, rfl, ha⟩
    · exact done trivial
  apply andThen hi
  intro first
  apply bind (many hnext)
  intro more
  apply done
  simp only [true_and, List.mem_cons, exists_eq_or_imp]
  exact fun _ => ⟨fun _ hfirst => .inl hfirst, fun hmore _ => .inr hmore⟩

theorem parenthesized {item item' : Parse α}
    (hi : Follows c c' far true (fun _ => True) d item item') :
    Follows c c' far k (fun _ => True) (fun as => ∃ a ∈ as, d a)
      (Grammar.parenthesized item) (Grammar.parenthesized item') := by
  apply pastToken (Lays.mark _)
  intro _
  apply past (Lays.atMark _)
  intro closed
  apply ite
  · apply past (Lays.done (e := fun _ => []) rfl)
    intro as
    exact past (Lays.mark _) fun _ => done trivial
  · apply bind (commaSeparated hi)
    intro as
    exact past (Lays.mark _) fun _ => done fun _ => ⟨trivial, fun h => h⟩

/-! ## Blocks -/

section

variable {statement statement' : Parse Node} {d : Node → Prop}

/-- What a statement finds is kept by the round of a block that goes on behind it. -/
theorem found_round {depth : Nat} {t : Token} {rest : List Token}
    (starters : List String) (hd : ¬s.depth < depth) (hr : s.rest = t :: rest)
    (ht : t.isMark .closeBrace = false) :
    found (statement c s) <+: found (round depth starters statement c s) := by
  generalize h : round depth starters statement c s = e
  cases roundDerivation_iff.mpr h with
  | outside hd' => exact absurd hd' hd
  | unclosed _ hr' => simp [hr] at hr'
  | closes _ hr' ht' => simp_all
  | reads _ _ _ hstat => simp [hstat, found]
  | resumes _ _ _ hstat _ => simp [hstat, found, State.faulted]
  | fails _ _ _ hstat _ => simp [hstat, found]

theorem round (h : Follows c c' far true (fun _ => True) d statement statement') (depth : Nat)
    (starters : List String) :
    Follows c c' far false (fun _ => True) (fun ns? => ∃ ns ∈ ns?, ∃ n ∈ ns, d n)
      (Grammar.round depth starters statement) (Grammar.round depth starters statement') := by
  refine ⟨h.left.round depth starters, h.right.round depth starters, fun {s ns? s'} hclean => ?_⟩
  refine ⟨trivial, ?_⟩
  cases ns? with
  | some ns =>
      obtain ⟨u, rest, n, hr, hu, hd, rfl, hstatement⟩ := hclean.of_round h.left
      obtain ⟨-, hsame | ⟨hdeep, hlen, hfound⟩⟩ := h.run hstatement
      · exact .inl (hsame.round hd hr hu)
      · refine .inr ⟨⟨[n], rfl, n, List.mem_singleton_self n, hdeep⟩, hlen, ?_⟩
        exact hfound.mono (found_round starters hd hr hu)
  | none =>
      have hfaults := hclean.faults
      cases roundDerivation_iff.mpr hclean.run with
      | outside hd => exact .inl ⟨(RoundDerivation.outside hd).execution, rfl⟩
      | closes hd hr hu => exact .inl ⟨(RoundDerivation.closes hd hr hu).execution, hfaults⟩

theorem block (h : Follows c c' far true (fun _ => True) d statement statement')
    (starters : List String) :
    Follows c c' far k (fun _ => True) (fun ns => ∃ n ∈ ns, d n) (Grammar.block starters statement)
      (Grammar.block starters statement') := by
  rw [block_eq, block_eq]
  have hdepth : Follows c c' far false (fun _ => True) (fun _ => False) braceDepth braceDepth :=
    ⟨.depth, .depth, fun hp => ⟨trivial, .inl ⟨hp.run, hp.faults⟩⟩⟩
  apply pastToken (Lays.mark _)
  intro _
  apply bind hdepth
  intro depth
  apply (h.round depth starters).many.map (fun _ _ _ => ⟨trivial, False.elim⟩)
  rintro nss - ⟨ns, hns, n, hn, hdeep⟩ -
  exact ⟨n, List.mem_flatten.mpr ⟨ns, hns, hn⟩, hdeep⟩

theorem blockOf (h : Follows c c' far true (fun _ => True) d statement statement')
    (starters : List String) :
    Follows c c' far k (fun _ => True) (fun ns => ∃ n ∈ ns, d n)
      (Grammar.blockOf starters statement) (Grammar.blockOf starters statement') := by
  apply block
  apply past (Lays.atOneOf _)
  intro begun
  exact ite h (fails fun _ _ => run_unexpected _)

end

end Follows

end Storyworld.Grammar
