import Storyworld.Proofs.Shape.Collects

namespace Storyworld.Shape

/-! Building from any parts at all. What is built without a fault on the way satisfies what its
builder ensures; what was built with faults is dropped in the end, so nothing is asked of it. -/

variable {α β : Type} {Q : α → Prop} {R : β → Prop}

/-! ## Reading -/

/-- A reading whose result, whatever parts it finds, satisfies `Q`. -/
def Yields (r : Reading α) (Q : α → Prop) : Prop :=
  ∀ span cs, Gives (fun _ => True) (r span cs) fun p => Q p.1

namespace Yields

variable {r : Reading α}

theorem any : Yields r fun _ => True :=
  fun _ _ => .any

theorem done {a : α} (h : Q a) : Yields (pure a) Q :=
  fun _ _ => .done h

theorem bind {f : α → Reading β} (hr : Yields r Q) (hf : ∀ a, Q a → Yields (f a) R) :
    Yields (r >>= f) R :=
  fun span cs => (hr span cs).bind fun _ h => hf _ h span _

/-- What comes behind a reading of which nothing is known. -/
theorem behind {f : α → Reading β} (hf : ∀ a, Yields (f a) R) : Yields (r >>= f) R :=
  any.bind fun a _ => hf a

theorem lift {x : Except ShapeFault α} (h : Gives (fun _ => True) x Q) : Yields (liftM x) Q := by
  intro span cs
  cases x with
  | error fault => exact .fail trivial
  | ok a => exact .done (h.ok rfl)

theorem parts {n : Node} (h : Yields r Q) : Gives (fun _ => True) (n.parts r) Q :=
  (h n.span n.children).map fun _ hp => hp

end Yields

/-! ## Collecting -/

/-- Building never forgets a fault, and where it records none and gives something, that satisfies
`Q`. -/
structure Ensures (m : Collecting α) (Q : α → Prop) : Prop where
  ok : ∀ {s a s'}, m s = .ok a s' → s.length ≤ s'.length ∧ (s'.length = s.length → Q a)
  error : ∀ {s fault s'}, m s = .error fault s' → s.length ≤ s'.length

namespace Ensures

variable {m : Collecting α} {f : α → Collecting β}

theorem done {a : α} (h : Q a) : Ensures (pure a) Q :=
  ⟨fun hok => by cases hok; exact ⟨Nat.le_refl _, fun _ => h⟩, nofun⟩

theorem fail {fault : ShapeFault} : Ensures (throw fault) Q :=
  ⟨nofun, fun herr => by cases herr; exact Nat.le_refl _⟩

theorem fail_bind {fault : ShapeFault} : Ensures (throw fault >>= f) R :=
  ⟨nofun, fun herr => by cases herr; exact Nat.le_refl _⟩

/-- What is built first may be built with faults; then it need not satisfy `Q`. -/
theorem bind (hm : Ensures m Q) (hf : ∀ a, Ensures (f a) fun b => Q a → R b) :
    Ensures (m >>= f) R := by
  constructor
  · intro s b s'' h
    rw [run_bind] at h
    cases hms : m s with
    | error fault s' => simp [hms] at h
    | ok a s' =>
        rw [hms] at h
        obtain ⟨hle, hQ⟩ := hm.ok hms
        obtain ⟨hle', hR⟩ := (hf a).ok h
        exact ⟨hle.trans hle', fun hlen => hR (by omega) (hQ (by omega))⟩
  · intro s fault s'' h
    rw [run_bind] at h
    cases hms : m s with
    | error fault' s' =>
        rw [hms] at h
        cases h
        exact hm.error hms
    | ok a s' =>
        rw [hms] at h
        exact (hm.ok hms).1.trans ((hf a).error h)

theorem mono {Q' : α → Prop} (hm : Ensures m Q) (h : ∀ a, Q a → Q' a) : Ensures m Q' :=
  ⟨fun hok => ⟨(hm.ok hok).1, fun hlen => h _ ((hm.ok hok).2 hlen)⟩, hm.error⟩

theorem lift {x : Except ShapeFault α} (h : Gives (fun _ => True) x Q) : Ensures (liftM x) Q := by
  cases x with
  | error fault => exact fail
  | ok a => exact done (h.ok rfl)

/-- What is built without collecting satisfies `Q` also where faults were recorded before. -/
theorem given {x : Except ShapeFault α} (hx : Gives (fun _ => True) x Q)
    (hf : ∀ a, Q a → Ensures (f a) R) : Ensures (liftM x >>= f) R := by
  cases x with
  | error fault => exact fail_bind
  | ok a => exact hf a (hx.ok rfl)

/-- What comes behind something of which nothing is known. -/
theorem behind {x : Except ShapeFault α} (hf : ∀ a, Ensures (f a) R) : Ensures (liftM x >>= f) R :=
  given .any fun a _ => hf a

theorem ite {b : Prop} [Decidable b] {m' : Collecting α} (hm : b → Ensures m Q)
    (hm' : ¬b → Ensures m' Q) : Ensures (if b then m else m') Q := by
  split
  · exact hm ‹_›
  · exact hm' ‹_›

/-- A fault is recorded, so nothing that is built counts. -/
theorem report {fault : ShapeFault} : Ensures (report fault) fun _ => False := by
  refine ⟨fun hok => ?_, nofun⟩
  cases hok
  simp

/-- Where nothing is recorded, what is kept is there. -/
theorem keep (hm : Ensures m Q) : Ensures (keep m) fun a? => ∃ a, a? = some a ∧ Q a := by
  constructor
  · intro s a? s' h
    rw [run_keep] at h
    cases hms : m s with
    | ok a s₁ =>
        rw [hms] at h
        cases h
        exact ⟨(hm.ok hms).1, fun hlen => ⟨a, rfl, (hm.ok hms).2 hlen⟩⟩
    | error fault s₁ =>
        rw [hms] at h
        cases h
        have hle := hm.error hms
        simp only [List.length_append, List.length_singleton]
        exact ⟨by omega, fun hlen => by omega⟩
  · intro s fault s' h
    rw [run_keep] at h
    split at h <;> cases h

/-- A slot is filled, or it is recorded that it was full. -/
theorem setOnce {slot : Option α} {what : String} {span : Span} {a : α} {g : Option α → β}
    (h : R (g (some a))) : Ensures (do return g (← setOnce slot what span a)) R := by
  cases slot with
  | none => exact done h
  | some old => exact report.bind fun _ => done False.elim

/-! ### Lists -/

theorem mapM {as : List α} (h : ∀ a ∈ as, Ensures (f a) R) :
    Ensures (as.mapM f) fun bs => bs.length = as.length ∧ ∀ b ∈ bs, R b := by
  induction as with
  | nil => exact done (by simp)
  | cons a as ih =>
      rw [List.mapM_cons]
      refine (h a (by simp)).bind fun b => ?_
      refine (ih fun a' ha' => h a' (by simp [ha'])).bind fun bs => done ?_
      rintro ⟨hlen, hbs⟩ hb
      exact ⟨by simp [hlen], by simpa using ⟨hb, hbs⟩⟩

/-- Where nothing is recorded, every part is kept. -/
theorem keepAll {as : List α} (h : ∀ a ∈ as, Ensures (f a) R) :
    Ensures (keepAll f as) fun bs => (as ≠ [] → bs ≠ []) ∧ ∀ b ∈ bs, R b := by
  refine (mapM fun a ha => (h a ha).keep).bind fun bs? => done ?_
  rintro ⟨hlen, hall⟩
  refine ⟨fun hne => ?_, fun b hb => ?_⟩
  · obtain ⟨b?, hb?⟩ := List.exists_mem_of_length_pos (l := bs?) (by
      rw [hlen]
      exact List.length_pos_iff.mpr hne)
    obtain ⟨b, rfl, -⟩ := hall b? hb?
    exact List.ne_nil_of_mem (List.reduceOption_mem_iff.mpr hb?)
  · obtain ⟨b', hsome, hR⟩ := hall (some b) (List.reduceOption_mem_iff.mp hb)
    cases hsome
    exact hR

/-- What every step preserves is preserved by all of them. -/
theorem foldlM {step : β → α → Collecting β} {as : List α} {b : β}
    (h : ∀ b, ∀ a ∈ as, Ensures (step b a) fun b' => R b → R b') :
    Ensures (as.foldlM step b) fun b' => R b → R b' := by
  induction as generalizing b with
  | nil => exact done fun hb => hb
  | cons a as ih =>
      rw [List.foldlM_cons]
      refine (h b a (by simp)).bind fun b₁ => ?_
      refine (ih fun b' a' ha' => h b' a' (by simp [ha'])).mono fun b' h' hfirst hb => ?_
      exact h' (hfirst hb)

section

variable {A B : β → Prop} {change : β → Node → Collecting β} {start : β} {statements : List Node}

theorem kept_change {n : Node} {b : β} (h : Ensures (change b n) fun b' => A b → B b') :
    Ensures (do return (← Shape.keep (change b n)).getD b) fun b' => A b → B b' := by
  refine h.keep.bind fun b? => done ?_
  rintro ⟨b', rfl, hB⟩ hA
  exact hB hA

theorem keepChanges (h : ∀ b, ∀ n ∈ statements, Ensures (change b n) fun b' => A b → A b') :
    Ensures (keepChanges change start statements) fun b => A start → A b :=
  foldlM fun b n hn => kept_change (h b n hn)

/-- What every statement brings about and none undoes holds behind one or more of them. -/
theorem keepChanges_of_ne_nil (hne : statements ≠ []) (hA : ∀ b, B b → A b)
    (h : ∀ b, ∀ n ∈ statements, Ensures (change b n) fun b' => A b → B b') :
    Ensures (Shape.keepChanges change start statements) fun b => A start → B b := by
  cases statements with
  | nil => exact absurd rfl hne
  | cons n ns =>
      rw [Shape.keepChanges, List.foldlM_cons]
      refine (kept_change (h start n (by simp))).bind fun b => ?_
      refine (foldlM (R := B) fun b m hm => ?_).mono fun b' h' hfirst hstart => h' (hfirst hstart)
      exact (kept_change (h b m (by simp [hm]))).mono fun _ h' hB => h' (hA b hB)

end

end Ensures

end Storyworld.Shape
