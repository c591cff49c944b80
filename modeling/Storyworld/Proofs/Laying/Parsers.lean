import Storyworld.Proofs.Grammar.Clean
import Storyworld.Proofs.Tree.Laid

namespace Storyworld.Grammar

/-! What parsers make of the tokens they take. Whatever a parser gives is laid over tokens it took, in
their order; and as long as nothing is wrong, no parser goes by the settings. Both follow from how
parsers are put together. -/

/-- A parser that lays what it reads behind the parts `pre`: the parts `e a` of its result `a` are
among these and the parts that it lays over the tokens it takes. One that is `taking` takes a token
wherever it succeeds. -/
inductive Lays : (taking : Bool) → (pre : List Element) → {α : Type} → (e : α → List Element) →
    Parse α → Prop where
  | done {a : α} {e : α → List Element} (h : e a = pre) : Lays false pre e (pure a)
  | bind {p : Parse α} {f : α → Parse β} {d : α → List Element} {e : β → List Element}
      (hp : Lays false [] d p) (hf : ∀ a, Lays k (pre ++ d a) e (f a)) : Lays k pre e (p >>= f)
  | andThen {p : Parse α} {f : α → Parse β} {d : α → List Element} {e : β → List Element}
      (hp : Lays true [] d p) (hf : ∀ a, Lays false (pre ++ d a) e (f a)) : Lays k pre e (p >>= f)
  | thin {p : Parse α} {d e : α → List Element} (hp : Lays k pre d p)
      (h : ∀ a, (e a).Sublist (d a)) : Lays k pre e p
  | afresh {p : Parse α} {e : α → List Element} (hp : Lays k [] e p) : Lays k pre e p
  | look (f : List Token → Bool) : Lays false [] (fun _ => []) (looking f)
  | advance : Lays false [] (fun _ => []) Grammar.advance
  | take (expected : List String) (accept : Token → Bool) :
      Lays k [] (fun t => [.token t]) (expect expected accept)
  | fails {p : Parse α} {g : Context → State → SyntaxFault} {e : α → List Element}
      (h : ∀ c s, p c s = .error (g c s) s) : Lays k pre e p
  | nodeBy {parts : Parse (Rule × List Element)} (hp : Lays true [] Prod.snd parts) :
      Lays k [] (fun n => [.node n]) (nodeBy parts)
  | many {step : Parse (Option α)} {d : α → List Element}
      (hp : Lays false [] (fun a? => a?.elim [] d) step) :
      Lays false [] (fun as => as.flatMap d) (many step)
  | block (starters : List String) {statement : Parse Node}
      (hp : Lays true [] (fun n => [.node n]) statement) :
      Lays k [] (fun ns => ns.map .node) (block starters statement)

variable {k : Bool} {α β : Type} {p : Parse α} {pre : List Element} {d e : α → List Element}
  {c c' : Context} {s s' : State}

theorem Lays.advances (h : Lays k pre e p) : Advances k p := by
  induction h with
  | done => exact .pure _
  | bind _ _ ihp ihf => exact (ihp.bind ihf).weaken fun hk => by simp [hk]
  | andThen _ _ ihp ihf => exact (ihp.bind ihf).weaken fun _ => rfl
  | thin _ _ ih => exact ih
  | afresh _ ih => exact ih
  | look f => exact .look f
  | advance =>
      refine ⟨fun h => ?_, by simp, fun h => by cases h⟩
      cases h
      exact .advance
  | take expected accept => exact (Advances.take expected accept).weaken fun _ => rfl
  | fails h => exact .fails h
  | nodeBy _ ih => exact ih.node.weaken fun _ => rfl
  | many _ ih => exact ih.many
  | block starters _ ih => exact (ih.block starters).weaken fun _ => rfl

/-! ## What is given lies over what was taken -/

/-- A node from where reading stood to the token it took last lies over the tokens taken. -/
theorem Advances.over {taken : List Token} {cs : List Element} {r : Rule} {a : α}
    (hp : Advances k p) (h : p c s = .ok a s') (htaken : s.rest = taken ++ s'.rest)
    (hne : taken ≠ []) (hcs : OverIn taken cs) :
    (Node.mk r ((s.place c).upTo s'.last) cs).Over taken := by
  refine Node.over_mk.mpr ⟨?_, hcs⟩
  obtain ⟨t, ts, rfl⟩ := List.exists_cons_of_ne_nil hne
  rw [(hp.ok h).last_of_taken htaken hne]
  exact ⟨t, _, rfl, List.getLast?_eq_some_getLast hne, by simp [State.place, htaken]⟩

/-- Wherever a parser succeeds, and the parts `pre` lie among the tokens before, the parts `e` of its
result lie among these and those it took. -/
def LaysTaken (pre : List Element) (e : α → List Element) (p : Parse α) : Prop :=
  ∀ c s a s', p c s = .ok a s' → ∀ before taken, s.rest = taken ++ s'.rest →
    OverIn before pre → OverIn (before ++ taken) (e a)

namespace LaysTaken

/-- Parsers that give no parts. -/
theorem none : LaysTaken pre (fun _ => []) p :=
  fun _ _ _ _ _ _ _ _ _ => overIn_nil

theorem pure {a : α} (h : e a = pre) : LaysTaken pre e (Pure.pure a) := by
  intro c s a s' hrun before taken htaken hpre
  cases hrun
  rw [h]
  exact hpre.widen

theorem bind {f : α → Parse β} {e : β → List Element} (hp : LaysTaken [] d p)
    (hf : ∀ a, LaysTaken (pre ++ d a) e (f a)) {j : Bool} (ha : Advances j p)
    (hfa : ∀ a, Advances k (f a)) : LaysTaken pre e (p >>= f) := by
  intro c s b s'' h before taken htaken hpre
  rw [run_bind] at h
  cases hps : p c s with
  | error fault s' => simp [hps] at h
  | ok a s' =>
      rw [hps] at h
      obtain ⟨first, hfirst⟩ := (ha.ok hps).rest
      obtain ⟨second, hsecond⟩ := ((hfa a).ok h).rest
      have hsplit : taken = first ++ second := by
        rw [← hfirst, ← hsecond, ← List.append_assoc] at htaken
        exact (List.append_cancel_right htaken).symm
      have hover := hp c s a s' hps [] first hfirst.symm overIn_nil
      have hmore := hf a c s' b s'' h (before ++ first) second hsecond.symm (hpre.append hover)
      rwa [List.append_assoc, ← hsplit] at hmore

theorem map {g : α → β} {e : β → List Element} (hp : LaysTaken pre (fun a => e (g a)) p) :
    LaysTaken pre e (g <$> p) := by
  intro c s b s' h
  rw [run_map] at h
  split at h <;> cases h
  exact hp c s _ s' ‹_›

theorem collect {step : Parse (Option α)} (hp : LaysTaken [] (fun a? => a?.elim [] d) step)
    (ha : Advances false step) (n : Nat) :
    LaysTaken [] (fun as => as.flatMap d) (Grammar.collect step n) := by
  induction n with
  | zero => exact pure rfl
  | succ n ih =>
      refine hp.bind (fun a? => ?_) ha (k := false) fun a? => ?_
      · cases a? with
        | none => exact pure rfl
        | some a =>
            refine map fun c s as s' h before taken htaken hpre => ?_
            have hmore := ih c s as s' h [] taken htaken overIn_nil
            exact hpre.append hmore
      · cases a? with
        | none => exact .pure []
        | some a => exact (ha.collect n).map

theorem many {step : Parse (Option α)} (hp : LaysTaken [] (fun a? => a?.elim [] d) step)
    (ha : Advances false step) : LaysTaken [] (fun as => as.flatMap d) (Grammar.many step) := by
  intro c s as s' h
  rw [run_many] at h
  exact hp.collect ha _ c s as s' h

theorem node {parts : Parse (Rule × List Element)} (hp : LaysTaken [] Prod.snd parts)
    (ha : Advances true parts) : LaysTaken [] (fun n => [.node n]) (nodeBy parts) := by
  intro c s n s' h before taken htaken _
  rw [run_nodeBy] at h
  split at h <;> cases h
  rename_i r cs hparts
  have hover : OverIn taken cs := hp c s (r, cs) s' hparts [] taken htaken overIn_nil
  have hne : taken ≠ [] := by
    rintro rfl
    have hlt := ha.shorter hparts rfl
    simp [htaken] at hlt
  have hnode := ha.over hparts htaken hne (r := r) hover
  exact (Element.Over.single (Element.over_node.mpr hnode)).behind

theorem round {statement : Parse Node} (hp : LaysTaken [] (fun n => [.node n]) statement)
    (depth : Nat) (starters : List String) :
    LaysTaken [] (fun ns? => ns?.elim [] fun ns => ns.map .node)
      (Grammar.round depth starters statement) := by
  intro c s ns? s' h before taken htaken hpre
  cases roundDerivation_iff.mpr h with
  | outside hd | closes hd hr ht | resumes hd hr ht hstat hlt => exact overIn_nil
  | reads hd hr ht hstat => exact hp c s _ s' hstat before taken htaken hpre

/-- The statements of a block lie among the tokens it takes; what is skipped between them stays
uncovered. -/
theorem block {statement : Parse Node} (hp : LaysTaken [] (fun n => [.node n]) statement)
    (ha : Advances true statement) (starters : List String) :
    LaysTaken [] (fun ns => ns.map .node) (Grammar.block starters statement) := by
  have hrounds (depth : Nat) : LaysTaken [] (fun ns => ns.map .node)
      (List.flatten <$> Grammar.many (Grammar.round depth starters statement)) := by
    refine map fun c s nss s' h before taken htaken hpre => ?_
    change OverIn _ (nss.flatten.map .node)
    rw [List.map_flatten, ← List.flatMap_def]
    exact (hp.round depth starters).many (ha.round depth starters) c s nss s' h before taken
      htaken hpre
  rw [block_eq]
  have hmany (depth : Nat) := (ha.round depth starters).many.map (g := List.flatten)
  refine bind none (fun _ => ?_) (.mark .openBrace) fun _ => Advances.depth.bind hmany
  exact bind none (fun depth => hrounds depth) .depth hmany

end LaysTaken

/-- What a parser gives lies over the tokens it took. -/
theorem Lays.laid (h : Lays k pre e p) : LaysTaken pre e p := by
  induction h with
  | done h => exact .pure h
  | bind hp hf ihp ihf => exact ihp.bind ihf hp.advances fun a => (hf a).advances
  | andThen hp hf ihp ihf => exact ihp.bind ihf hp.advances fun a => (hf a).advances
  | thin _ hsub ih =>
      intro c s a s' hrun before taken htaken hpre
      exact (ih c s a s' hrun before taken htaken hpre).sublist (hsub a)
  | afresh _ ih =>
      intro c s a s' hrun before taken htaken _
      exact (ih c s a s' hrun [] taken htaken overIn_nil).behind
  | look f => exact .none
  | advance => exact .none
  | take expected accept =>
      intro c s t s' hrun before taken htaken _
      obtain ⟨rest, hr, -, rfl⟩ := expect_ok hrun
      rw [advance_of_cons hr, hr] at htaken
      obtain rfl : [t] = taken := List.append_cancel_right htaken
      exact (Element.Over.single (Element.over_token.mpr rfl)).behind
  | fails h =>
      intro c s a s' hrun
      rw [h] at hrun
      cases hrun
  | nodeBy hp ih => exact ih.node hp.advances
  | many hp ih => exact ih.many hp.advances
  | block starters hp ih => exact ih.block hp.advances starters

/-! ## Without a fault the settings are never asked -/

/-- Where a parser finds no fault, it reads the same in every context. -/
def Heedless (p : Parse α) : Prop :=
  ∀ c c' s a s', Clean p c s a s' → Clean p c' s a s'

namespace Heedless

/-- What a parser gives is the same in every context; only its faults can tell contexts apart. -/
theorem of_run (h : ∀ c c' s a s', p c s = .ok a s' → p c' s = .ok a s') : Heedless p :=
  fun c c' s a s' hp => ⟨h c c' s a s' hp.run, hp.faults⟩

theorem bind {f : α → Parse β} {j : Bool} (hp : Heedless p) (hf : ∀ a, Heedless (f a))
    (ha : Advances j p) (hfa : ∀ a, Advances k (f a)) : Heedless (p >>= f) := by
  intro c c' s b s'' h
  obtain ⟨a, s', hps, hfs⟩ := h.of_bind ha hfa
  exact (hp c c' s a s' hps).bind (hf a c c' s' b s'' hfs)

theorem pure (a : α) : Heedless (Pure.pure a : Parse α) :=
  of_run fun _ _ _ _ _ h => h

theorem map {g : α → β} (hp : Heedless p) : Heedless (g <$> p) := by
  intro c c' s b s' h
  obtain ⟨a, rfl, hps⟩ := h.of_map
  exact (hp c c' s a s' hps).map

theorem take (expected : List String) (accept : Token → Bool) :
    Heedless (expect expected accept) := by
  refine of_run fun c c' s t s' h => ?_
  obtain ⟨rest, hr, ht, rfl⟩ := expect_ok h
  exact expect_of_cons hr ht

/-- A node is never empty, so that it begins at a token and not at the end of the source. -/
theorem node {parts : Parse (Rule × List Element)} (hp : Heedless parts)
    (ha : Advances true parts) : Heedless (nodeBy parts) := by
  intro c c' s n s' h
  obtain ⟨r, cs, rfl, hparts⟩ := h.of_node
  have hplace : s.place c = s.place c' := by
    cases hr : s.rest with
    | nil =>
        have hlt := ha.shorter hparts.run rfl
        simp [hr] at hlt
    | cons t rest => simp [State.place, hr]
  rw [hplace]
  exact (hp c c' s (r, cs) s' hparts).node

theorem collect {step : Parse (Option α)} (hp : Heedless step) (ha : Advances false step)
    (n : Nat) : Heedless (Grammar.collect step n) := by
  induction n with
  | zero => exact pure []
  | succ n ih =>
      refine hp.bind (fun a? => ?_) ha (k := false) fun a? => ?_
      · cases a? with
        | none => exact pure []
        | some a => exact ih.map
      · cases a? with
        | none => exact .pure []
        | some a => exact (ha.collect n).map

theorem many {step : Parse (Option α)} (hp : Heedless step) (ha : Advances false step) :
    Heedless (Grammar.many step) := by
  intro c c' s as s' h
  have hcollect : Clean (Grammar.collect step (s.rest.length + 1)) c s as s' :=
    ⟨(run_many step).symm.trans h.run, h.faults⟩
  exact ⟨(run_many step).trans (hp.collect ha _ c c' s as s' hcollect).run, h.faults⟩

theorem round {statement : Parse Node} (hp : Heedless statement) (ha : Advances true statement)
    (depth : Nat) (starters : List String) :
    Heedless (Grammar.round depth starters statement) := by
  intro c c' s ns? s' h
  cases ns? with
  | some ns =>
      obtain ⟨u, rest, n, hr, hu, hd, rfl, hstatement⟩ := h.of_round ha
      exact (hp c c' s n s' hstatement).round hd hr hu
  | none =>
      have hfaults := h.faults
      cases roundDerivation_iff.mpr h.run with
      | outside hd => exact ⟨(RoundDerivation.outside hd).execution, rfl⟩
      | closes hd hr hu => exact ⟨(RoundDerivation.closes hd hr hu).execution, hfaults⟩

theorem block {statement : Parse Node} (hp : Heedless statement) (ha : Advances true statement)
    (starters : List String) : Heedless (Grammar.block starters statement) := by
  have hdepth : Heedless braceDepth := of_run fun _ _ _ _ _ h => h
  have hmark : Heedless (mark .openBrace) := (take _ _).map
  have hmany (depth : Nat) := (ha.round depth starters).many.map (g := List.flatten)
  rw [block_eq]
  refine hmark.bind (fun _ => ?_) (.mark _) fun _ => Advances.depth.bind hmany
  exact hdepth.bind (fun depth => ((hp.round ha depth starters).many (ha.round _ _)).map) .depth hmany

end Heedless

theorem Lays.heedless (h : Lays k pre e p) : Heedless p := by
  induction h with
  | done => exact .pure _
  | bind hp hf ihp ihf => exact ihp.bind ihf hp.advances fun a => (hf a).advances
  | andThen hp hf ihp ihf => exact ihp.bind ihf hp.advances fun a => (hf a).advances
  | thin _ _ ih => exact ih
  | afresh _ ih => exact ih
  | look f => exact .of_run fun _ _ _ _ _ h => h
  | advance => exact .of_run fun _ _ _ _ _ h => h
  | take expected accept => exact .take expected accept
  | fails h =>
      intro c c' s a s' hclean
      have hrun := hclean.run
      rw [h] at hrun
      cases hrun
  | nodeBy hp ih => exact ih.node hp.advances
  | many hp ih => exact ih.many hp.advances
  | block starters hp ih => exact ih.block hp.advances starters

end Storyworld.Grammar
