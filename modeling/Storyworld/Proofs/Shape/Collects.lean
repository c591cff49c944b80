import Mathlib.Data.List.ReduceOption
import Storyworld.Proofs.Shape.Gives

namespace Storyworld.Shape

/-! Building that records faults as it goes. -/

variable {α β : Type} {m : Collecting α} {f : α → Collecting β} {s : List ShapeFault}

/-! ## Runs -/

theorem run_bind : (m >>= f) s =
    match m s with
    | .ok a s' => f a s'
    | .error fault s' => .error fault s' := by
  change EStateM.bind m f s = _
  unfold EStateM.bind
  cases m s <;> rfl

theorem run_keep : keep m s =
    match m s with
    | .ok a s' => .ok (some a) s'
    | .error fault s' => .ok none (s' ++ [fault]) := by
  change EStateM.tryCatch (some <$> m) (fun fault => do report fault; return none) s = _
  have hsome : (some <$> m) s =
      match m s with
      | .ok a s' => .ok (some a) s'
      | .error fault s' => .error fault s' := by
    change EStateM.map some m s = _
    unfold EStateM.map
    cases m s <;> rfl
  rw [EStateM.tryCatch, hsome]
  cases m s <;> rfl

/-! ## What holds of results and faults -/

/-- A result that satisfies `Q`, or a fault that satisfies `F`; the faults recorded on the way satisfy
`F` in both cases. -/
structure Collects (F : ShapeFault → Prop) (m : Collecting α) (Q : α → Prop) : Prop where
  ok : ∀ {s a s'}, (∀ f ∈ s, F f) → m s = .ok a s' → Q a ∧ ∀ f ∈ s', F f
  error : ∀ {s f s'}, (∀ f ∈ s, F f) → m s = .error f s' → F f ∧ ∀ f ∈ s', F f

namespace Collects

variable {F : ShapeFault → Prop} {Q : α → Prop} {R : β → Prop} {fault : ShapeFault}
  {what : String} {span : Span}

theorem done {a : α} (h : Q a) : Collects F (pure a) Q :=
  ⟨fun hs ha => by cases ha; exact ⟨h, hs⟩, nofun⟩

theorem fail (h : F fault) : Collects F (throw fault) Q :=
  ⟨nofun, fun hs hf => by cases hf; exact ⟨h, hs⟩⟩

theorem bind (hm : Collects F m Q) (hf : ∀ a, Q a → Collects F (f a) R) :
    Collects F (m >>= f) R := by
  constructor
  · intro s b s' hs h
    rw [run_bind] at h
    split at h
    · rename_i a s₁ hrun
      obtain ⟨ha, hs₁⟩ := hm.ok hs hrun
      exact (hf a ha).ok hs₁ h
    · cases h
  · intro s b s' hs h
    rw [run_bind] at h
    split at h
    · rename_i a s₁ hrun
      obtain ⟨ha, hs₁⟩ := hm.ok hs hrun
      exact (hf a ha).error hs₁ h
    · rename_i hrun
      cases h
      exact hm.error hs hrun

theorem lift {x : Except ShapeFault α} (h : Gives F x Q) : Collects F (liftM x) Q := by
  cases x with
  | error fault => exact fail (h.error rfl)
  | ok a => exact done (h.ok rfl)

theorem report (h : F fault) : Collects F (report fault) fun _ => True := by
  refine ⟨fun hs hrun => ?_, fun _ hrun => by cases hrun⟩
  cases hrun
  refine ⟨trivial, fun f hf => ?_⟩
  rcases List.mem_append.mp hf with hf | hf
  · exact hs f hf
  · rw [List.mem_singleton.mp hf]
    exact h

/-- A fault that is kept is recorded. -/
theorem keep (hm : Collects F m Q) : Collects F (keep m) fun a? => ∀ a ∈ a?, Q a := by
  constructor
  · intro s a? s' hs h
    rw [run_keep] at h
    split at h <;> cases h
    · obtain ⟨ha, hs'⟩ := hm.ok hs ‹_›
      exact ⟨by simpa using ha, hs'⟩
    · obtain ⟨hfault, hs'⟩ := hm.error hs ‹_›
      refine ⟨by simp, fun f hf => ?_⟩
      rcases List.mem_append.mp hf with hf | hf
      · exact hs' f hf
      · rw [List.mem_singleton.mp hf]
        exact hfault
  · intro s fault s' hs h
    rw [run_keep] at h
    split at h <;> cases h

theorem mapM {as : List α} (h : ∀ a ∈ as, Collects F (f a) R) :
    Collects F (as.mapM f) fun bs => ∀ b ∈ bs, R b := by
  induction as with
  | nil => exact done (by simp)
  | cons a as ih =>
      rw [List.mapM_cons]
      refine (h a (by simp)).bind fun b hb => ?_
      refine (ih fun a' ha' => h a' (by simp [ha'])).bind fun bs hbs => done ?_
      simpa using ⟨hb, hbs⟩

theorem foldlM {step : β → α → Collecting β} {b : β} {as : List α} (hb : R b)
    (h : ∀ b, R b → ∀ a ∈ as, Collects F (step b a) R) : Collects F (as.foldlM step b) R := by
  induction as generalizing b with
  | nil => exact done hb
  | cons a as ih =>
      rw [List.foldlM_cons]
      exact (h b hb a (by simp)).bind fun b' hb' => ih hb' fun b hb a' ha' => h b hb a' (by simp [ha'])

theorem keepAll {as : List α} (h : ∀ a ∈ as, Collects F (f a) R) :
    Collects F (keepAll f as) fun bs => ∀ b ∈ bs, R b := by
  refine (mapM fun a ha => (h a ha).keep).bind fun bs hbs => done ?_
  intro b hb
  exact hbs (some b) (List.reduceOption_mem_iff.mp hb) b rfl

/-- What holds of the start and is preserved by every change holds in the end. -/
theorem keepChanges {change : β → Node → Collecting β} {start : β} {statements : List Node}
    (hstart : R start) (h : ∀ b, R b → ∀ n ∈ statements, Collects F (change b n) R) :
    Collects F (keepChanges change start statements) R := by
  refine foldlM hstart fun b hb n hn => (h b hb n hn).keep.bind fun b? hb? => done ?_
  cases b? with
  | none => exact hb
  | some b' => exact hb? b' rfl

/-- A slot is filled, or it is recorded that it was full and it stays as it is. -/
theorem setOnce {slot : Option α} {a : α} {g : Option α → β} (h : F (.repeated what span))
    (hnew : R (g (some a))) (hold : R (g slot)) :
    Collects F (do return g (← setOnce slot what span a)) R := by
  cases slot with
  | none => exact done hnew
  | some old => exact (report h).bind fun _ _ => done hold

end Collects

theorem require_gives {F : ShapeFault → Prop} {slot : Option α} {what : String} {span : Span}
    (h : F (.missing what span)) : Gives F (require slot what span) (slot = some ·) := by
  cases slot with
  | none => exact .fail h
  | some a => exact .done rfl

end Storyworld.Shape
