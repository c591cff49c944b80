import Storyworld.Proofs.Shape.Collects

namespace Storyworld.Shape

/-! What building records. A builder does not look at the faults recorded before it, so it finds the
same ones wherever it runs, and what is built behind it takes none of them back. -/

variable {α β : Type} {m : Collecting α} {f : α → Collecting β} {s : List ShapeFault}

/-! ## Faults recorded earlier -/

/-- A result behind faults that were recorded earlier. -/
def behind (earlier : List ShapeFault) :
    EStateM.Result ShapeFault (List ShapeFault) α → EStateM.Result ShapeFault (List ShapeFault) α
  | .ok a s => .ok a (earlier ++ s)
  | .error fault s => .error fault (earlier ++ s)

/-- Building that does not look at the faults recorded before it. -/
def Blind (m : Collecting α) : Prop :=
  ∀ s, m s = behind s (m [])

namespace Blind

theorem done (a : α) : Blind (pure a) :=
  fun s => congrArg (EStateM.Result.ok a) (List.append_nil s).symm

theorem fail (fault : ShapeFault) : Blind (throw fault : Collecting α) :=
  fun s => congrArg (EStateM.Result.error fault) (List.append_nil s).symm

theorem lift (x : Except ShapeFault α) : Blind (liftM x) := by
  cases x with
  | error fault => exact fail fault
  | ok a => exact done a

theorem bind (hm : Blind m) (hf : ∀ a, Blind (f a)) : Blind (m >>= f) := by
  intro s
  rw [run_bind, run_bind, hm s]
  cases m [] with
  | error fault s' => rfl
  | ok a s' =>
      change f a (s ++ s') = behind s (f a s')
      rw [hf a (s ++ s'), hf a s']
      cases f a [] <;> simp [behind]

theorem map {g : α → β} (hm : Blind m) : Blind (g <$> m) :=
  hm.bind fun a => done (g a)

theorem ite {b : Prop} [Decidable b] {m' : Collecting α} (hm : Blind m) (hm' : Blind m') :
    Blind (if b then m else m') := by
  split
  · exact hm
  · exact hm'

theorem report (fault : ShapeFault) : Blind (report fault) :=
  fun _ => rfl

theorem keep (hm : Blind m) : Blind (keep m) := by
  intro s
  rw [run_keep, run_keep, hm s]
  cases m [] <;> simp [behind]

theorem setOnce {slot : Option α} {what : String} {span : Span} {a : α} {g : Option α → β} :
    Blind (do return g (← setOnce slot what span a)) := by
  cases slot with
  | none => exact done _
  | some old => exact (report _).bind fun _ => done _

theorem mapM {as : List α} (h : ∀ a, Blind (f a)) : Blind (as.mapM f) := by
  induction as with
  | nil => exact done []
  | cons a as ih =>
      rw [List.mapM_cons]
      exact (h a).bind fun b => ih.bind fun bs => done (b :: bs)

theorem foldlM {step : β → α → Collecting β} {as : List α} {b : β} (h : ∀ b a, Blind (step b a)) :
    Blind (as.foldlM step b) := by
  induction as generalizing b with
  | nil => exact done b
  | cons a as ih =>
      rw [List.foldlM_cons]
      exact (h b a).bind fun b => ih

theorem keepAll {as : List α} (h : ∀ a, Blind (f a)) : Blind (keepAll f as) :=
  (mapM fun a => (h a).keep).bind fun _ => done _

end Blind

/-! ## The faults of a builder -/

/-- The faults that building records, with the one that ends it last. -/
def faults (m : Collecting α) : List ShapeFault :=
  match m [] with
  | .ok _ s => s
  | .error fault s => s ++ [fault]

variable {fault : ShapeFault}

theorem faults_of_ok {a : α} (h : m [] = .ok a s) : faults m = s := by
  rw [faults, h]

/-- All that building finds at fault is to be expected. -/
theorem Collects.faults {F : ShapeFault → Prop} {Q : α → Prop} (h : Collects F m Q) :
    ∀ fault ∈ faults m, F fault := by
  intro fault hfault
  unfold Shape.faults at hfault
  cases hm : m [] with
  | ok a s =>
      rw [hm] at hfault
      exact (h.ok (by simp) hm).2 fault hfault
  | error last s =>
      rw [hm] at hfault
      obtain ⟨hlast, hs⟩ := h.error (by simp) hm
      rcases List.mem_append.mp hfault with hfault | hfault
      · exact hs fault hfault
      · rwa [List.mem_singleton.mp hfault]

theorem faults_bind_of_ok {a : α} (h : m [] = .ok a s) (hf : Blind (f a)) :
    faults (m >>= f) = s ++ faults (f a) := by
  unfold faults
  rw [run_bind, h]
  change (match f a s with | .ok _ s => s | .error fault s => s ++ [fault]) = _
  rw [hf s]
  cases f a [] <;> simp [behind]

/-- What is recorded stays recorded. -/
theorem mem_faults_bind (hf : ∀ a, Blind (f a)) (h : fault ∈ faults m) :
    fault ∈ faults (m >>= f) := by
  cases hm : m [] with
  | ok a s =>
      rw [faults_of_ok hm] at h
      rw [faults_bind_of_ok hm (hf a)]
      exact List.mem_append_left _ h
  | error fault' s =>
      unfold faults at h ⊢
      rw [hm] at h
      rwa [run_bind, hm]

theorem faults_lift_bind {x : Except ShapeFault α} {a : α} (h : x = .ok a) :
    faults (liftM x >>= f) = faults (f a) := by
  rw [h]
  rfl

theorem faults_map {g : α → β} : faults (g <$> m) = faults m := by
  change faults (m >>= fun a => pure (g a)) = faults m
  unfold faults
  rw [run_bind]
  cases m [] <;> rfl

/-- What is kept is built, or its fault is recorded. -/
theorem exists_keep : ∃ a?, keep m [] = .ok a? (faults m) := by
  rw [run_keep, faults]
  cases m [] with
  | ok a s => exact ⟨some a, rfl⟩
  | error fault s => exact ⟨none, rfl⟩

theorem faults_keep : faults (keep m) = faults m := by
  obtain ⟨a?, h⟩ := exists_keep (m := m)
  exact faults_of_ok h

section

variable {as : List α}

/-- Everything in a list is built up to the faults it has. -/
theorem exists_mapM_keep (as : List α) (hf : ∀ a, Blind (f a)) :
    ∃ bs?, as.mapM (fun a => keep (f a)) [] = .ok bs? (as.flatMap fun a => faults (f a)) := by
  induction as with
  | nil => exact ⟨[], rfl⟩
  | cons a as ih =>
      obtain ⟨b?, hb⟩ := exists_keep (m := f a)
      obtain ⟨bs?, hbs⟩ := ih
      have hblind : Blind (as.mapM fun a => keep (f a)) := .mapM fun a => (hf a).keep
      refine ⟨b? :: bs?, ?_⟩
      rw [List.mapM_cons, run_bind, hb]
      change (as.mapM (fun a => keep (f a)) >>= fun bs => pure (b? :: bs)) (faults (f a)) = _
      rw [run_bind, hblind, hbs]
      rfl

theorem faults_keepAll (hf : ∀ a, Blind (f a)) :
    faults (keepAll f as) = as.flatMap fun a => faults (f a) := by
  obtain ⟨bs?, h⟩ := exists_mapM_keep as hf
  have hdone : Blind (pure bs?.reduceOption : Collecting (List β)) := .done _
  exact (faults_bind_of_ok (f := fun bs => pure bs.reduceOption) h hdone).trans (List.append_nil _)

end

end Storyworld.Shape
