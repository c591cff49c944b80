import Storyworld.Proofs.Grammar.Lasting
import Storyworld.Proofs.Token.Lexer

namespace Storyworld

/-! What parsers find is made of the tokens they take. A node begins with the first token that was
taken for it and ends with the last one, so that its parts lie inside it. -/

/-- What is asked of `T` and `S`: that a region from a token to one that ends behind it is among the
places. -/
def Joins (T : Token → Prop) (S : Span → Prop) : Prop :=
  ∀ t u, T t → T u → t.span.start < u.span.stop → S (t.span.upTo u.span)

variable {T : Token → Prop} {S : Span → Prop}

/-- Regions that lie inside another one are joined inside it. -/
theorem Joins.inside (h : Joins T S) (outer : Span) :
    Joins (fun t => T t ∧ t.span.Inside outer) (fun s => S s ∧ s.Inside outer) := by
  intro t u ht hu hlt
  refine ⟨h t u ht.1 hu.1 hlt, ht.2.start, ?_, ?_⟩
  · simp only [Span.upTo]
    omega
  · have hstop := hu.2.stop
    simp only [Span.upTo]
    omega

/-- A token lies in the region from the first one of a row to the last. -/
theorem InOrder.inside {t u : Token} {ts : List Token} (h : InOrder (t :: ts)) (hu : u ∈ t :: ts) :
    u.span.Inside (t.span.upTo ((t :: ts).getLast (by simp)).span) := by
  have hhead := h.head_le hu
  have hlast := h.le_last (by simp) hu
  have hlt := h.lt u hu
  refine ⟨hhead, by omega, ?_⟩
  simp only [Span.upTo]
  omega

/-- The region that tokens in order cover is among the places. -/
theorem Joins.first_last {t : Token} {ts : List Token} (h : Joins T S)
    (hts : ∀ u ∈ t :: ts, T u) (horder : InOrder (t :: ts)) :
    S (t.span.upTo ((t :: ts).getLast (by simp)).span) := by
  have hle := horder.le_last (u := t) (by simp) (by simp)
  have hlt := horder.lt t (by simp)
  exact h _ _ (hts t (by simp)) (hts _ (List.getLast_mem _)) (by omega)

namespace Grammar

/-- What a parser reads goes from the first token it takes to the last one. -/
theorem Advances.upTo {p : Parse α} {c : Context} {s s' : State} {a : α} {t : Token}
    {ts : List Token} (hp : Advances k p) (h : p c s = .ok a s') (hrest : s.rest = t :: ts ++ s'.rest) :
    (s.place c).upTo s'.last = t.span.upTo ((t :: ts).getLast (by simp)).span := by
  have hplace : s.place c = t.span := by simp [State.place, hrest]
  rw [hplace, (hp.ok h).last_of_taken hrest (by simp)]

/-- A parser whose results satisfy `Q` wherever the tokens it takes satisfy `T` and are in order. -/
def Finds (T : Token → Prop) (c : Context) (p : Parse α) (Q : α → Prop) : Prop :=
  ∀ s a s' taken, p c s = .ok a s' → s.rest = taken ++ s'.rest → (∀ t ∈ taken, T t) →
    InOrder taken → Q a

variable {fl tk : Bool} {c : Context} {s : State} {Q : α → Prop}

namespace Finds

theorem pure {a : α} (h : Q a) : Finds T c (Pure.pure a : Parse α) Q := by
  intro s b s' taken hrun _ _ _
  cases hrun
  exact h

theorem bind {p : Parse α} {f : α → Parse β} {R : β → Prop} (hp : Finds T c p Q)
    (hpa : Advances k p) (hf : ∀ a, Finds T c (f a) fun b => Q a → R b)
    (hfa : ∀ a, Advances j (f a)) : Finds T c (p >>= f) R := by
  intro s b s'' taken h hrest hT horder
  rw [run_bind] at h
  cases hps : p c s with
  | error fault s' => simp [hps] at h
  | ok a s' =>
      rw [hps] at h
      obtain ⟨taken₁, hrest₁⟩ := (hpa.ok hps).rest
      obtain ⟨taken₂, hrest₂⟩ := ((hfa a).ok h).rest
      obtain rfl : taken = taken₁ ++ taken₂ := by
        refine List.append_cancel_right (hrest.symm.trans ?_)
        rw [List.append_assoc, hrest₂, hrest₁]
      refine hf a s' b s'' taken₂ h hrest₂.symm (fun t ht => hT t (by simp [ht])) horder.right ?_
      exact hp s a s' taken₁ hps hrest₁.symm (fun t ht => hT t (by simp [ht])) horder.left

theorem map {p : Parse α} {g : α → β} {R : β → Prop} (hp : Finds T c p Q) (hpa : Advances k p)
    (h : ∀ a, Q a → R (g a)) : Finds T c (g <$> p) R :=
  hp.bind hpa (fun a => pure (h a)) fun a => .pure (g a)

theorem fails {p : Parse α} {g : State → SyntaxFault} (h : ∀ s, p c s = .error (g s) s) :
    Finds T c p Q := by
  intro s a s' _ hok
  rw [h] at hok
  cases hok

theorem given {P : Prop} {p : Parse α} (hp : Finds T c p Q) : Finds T c p fun a => P → Q a :=
  fun s a s' taken h hrest hT horder _ => hp s a s' taken h hrest hT horder

theorem any {p : Parse α} : Finds T c p fun _ => True :=
  fun _ _ _ _ _ _ _ _ => trivial

/-- The tokens taken are the one that comes next. -/
theorem taken_of_advance {t : Token} {rest taken : List Token} (hr : s.rest = t :: rest)
    (h : s.rest = taken ++ s.advance.rest) : taken = [t] := by
  rw [advance_of_cons hr, hr] at h
  exact (List.append_cancel_right (h.symm : taken ++ rest = [t] ++ rest))

theorem take (expected : List String) (accept : Token → Bool) :
    Finds T c (expect expected accept) fun t => T t ∧ accept t := by
  intro s t s' taken h hrest hT _
  obtain ⟨rest, hr, ht, rfl⟩ := expect_ok h
  exact ⟨hT t (by simp [taken_of_advance hr hrest]), ht⟩

theorem number : Finds T c Grammar.number fun t => T t ∧ Part.number.admits t := by
  intro s t s' taken h hrest hT _
  obtain ⟨rest, hr, hk, hw, rfl⟩ := number_ok h
  exact ⟨hT t (by simp [taken_of_advance hr hrest]), by simp [Part.admits, hk, hw]⟩

/-- A node begins with the first token taken for it and ends with the last one. -/
theorem node {parts : Parse (Rule × List Element)} {Q : Span → Rule × List Element → Prop}
    {N : Node → Prop} (hT : Joins T S) (hpa : Advances true parts)
    (hp : ∀ outer, Finds (fun t => T t ∧ t.span.Inside outer) c parts (Q outer))
    (h : ∀ r span cs, S span → Q span (r, cs) → N (.mk r span cs)) :
    Finds T c (nodeBy parts) N := by
  intro s n s' taken hok hrest htaken horder
  rw [run_nodeBy] at hok
  cases hps : parts c s with
  | error fault s'' => simp [hps] at hok
  | ok a s'' =>
      rw [hps] at hok
      cases hok
      have hlt := hpa.shorter hps rfl
      cases taken with
      | nil =>
          rw [hrest] at hlt
          simp at hlt
      | cons t ts =>
          rw [hpa.upTo hps hrest]
          refine h _ _ _ (hT.first_last htaken horder) (hp _ s a s' (t :: ts) hps hrest ?_ horder)
          exact fun u hu => ⟨htaken u hu, horder.inside hu⟩

theorem collect {step : Parse (Option α)} (hp : Finds T c step fun a? => ∀ a ∈ a?, Q a)
    (hpa : Advances false step) (n : Nat) :
    Finds T c (Grammar.collect step n) fun as => ∀ a ∈ as, Q a := by
  induction n with
  | zero => exact pure (by simp)
  | succ n ih =>
      refine hp.bind (j := false) hpa (fun a? => ?_) fun a? => ?_
      · cases a? with
        | none => exact pure (by simp)
        | some a => exact ih.map (hpa.collect n) fun as has ha => by simpa using ⟨ha a rfl, has⟩
      · cases a? with
        | none => exact .pure []
        | some a => exact (hpa.collect n).map

theorem many {step : Parse (Option α)} (hp : Finds T c step fun a? => ∀ a ∈ a?, Q a)
    (hpa : Advances false step) : Finds T c (Grammar.many step) fun as => ∀ a ∈ as, Q a := by
  intro s as s' taken h
  rw [run_many] at h
  exact hp.collect hpa _ s as s' taken h

theorem round {statement : Parse Node} {N : Node → Prop} (hp : Finds T c statement N)
    (depth : Nat) (starters : List String) :
    Finds T c (Grammar.round depth starters statement) fun ns? => ∀ ns ∈ ns?, ∀ n ∈ ns, N n := by
  intro s ns? s' taken h hrest hT horder
  cases roundDerivation_iff.mpr h with
  | outside hd | closes hd hr ht | resumes hd hr ht hstat hlt => simp
  | reads hd hr ht hstat => simpa using hp _ _ _ taken hstat hrest hT horder

theorem block {statement : Parse Node} {N : Node → Prop} (hp : Finds T c statement N)
    (hpa : Advances true statement) (starters : List String) :
    Finds T c (Grammar.block starters statement) fun ns => ∀ n ∈ ns, N n := by
  have hround (depth : Nat) := hpa.round depth starters
  rw [block_eq]
  refine (any (p := Grammar.mark .openBrace)).bind (j := false) (.mark _) (fun _ => ?_) fun _ => ?_
  · refine (any (p := braceDepth)).bind (j := false) .depth (fun depth => ?_) fun depth => ?_
    · refine ((hp.round depth starters).many (hround depth)).map (hround depth).many ?_
      intro rounds h _ _ n hn
      obtain ⟨ns, hns, hmem⟩ := List.mem_flatten.mp hn
      exact h ns hns n hmem
    · exact (hround depth).many.map
  · exact Advances.depth.bind (k := false) fun depth => (hround depth).many.map

theorem lines : Finds T c (do Grammar.mark .openBrace; Grammar.many dialogueLine)
    fun ts => ∀ t ∈ ts, T t ∧ t.isString := by
  have heat : Advances false (eatMark .closeBrace) :=
    .eat fun r => r[0]?.any (Token.isMark .closeBrace)
  have hline : Finds T c dialogueLine fun t? => ∀ t ∈ t?, T t ∧ t.isString := by
    refine (any (p := eatMark .closeBrace)).bind (j := false) heat (fun closed => ?_) fun closed => ?_
    · cases closed with
      | true => exact pure (by simp)
      | false => exact (take _ _).map (.take _ _) (by simp)
    · cases closed with
      | true => exact .pure none
      | false => exact ((Advances.take _ _).weaken (by simp)).map
  refine (any (p := Grammar.mark .openBrace)).bind (j := false) (.mark _) (fun _ => ?_) fun _ => ?_
  · intro s ts s' taken h hrest hT horder _
    exact hline.many .dialogueLine s ts s' taken h hrest hT horder
  · exact Advances.dialogueLine.many

end Finds

/-- Every parser finds what it is composed to find. -/
theorem Composed.finds {p : Parse α} {Q : α → Prop} (h : Composed T S fl tk p Q)
    (hT : Joins T S) : Finds T c p Q := by
  induction h with
  | done h => exact .pure h
  | bind hp hf ihp ihf => exact (ihp hT).bind hp.advances (fun a => ihf a hT) fun a => (hf a).advances
  | andThen hp hf ihp ihf =>
      exact (ihp hT).bind hp.advances (fun a => ihf a hT) fun a => (hf a).advances
  | map hp h ih => exact (ih hT).map hp.advances h
  | within _ ih => exact ih c.settings.maxNesting hT
  | look f => exact .any
  | eat f => exact .any
  | @fork _ _ tk _ _ _ _ _ _ f _ _ hp hq _ _ ihp ihq =>
      refine (Finds.any (p := looking f)).bind (j := tk) (.look f) (fun found => ?_) fun found => ?_
      · cases found
        exacts [(ihq hT).given, (ihp hT).given]
      · cases found
        exacts [hq.advances, hp.advances]
  | take expected accept => exact .take expected accept
  | number => exact .number
  | unexpected expected => exact .fails fun _ => run_unexpected expected
  | failHere cause => exact .fails fun _ => run_failHere cause
  | node hp h ih => exact .node hT (hp .origin).advances (fun outer => ih outer (hT.inside outer)) h
  | many hp _ ih => exact (ih hT).many (hp.advances.weaken (by simp))
  | block starters hp ih => exact (ih hT).block hp.advances starters
  | lines => exact .lines

end Grammar

end Storyworld
