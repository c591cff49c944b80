import Mathlib.Data.List.Forall2
import Storyworld.Proofs.Shape.Collects

namespace Storyworld.Shape

/-! Building that finds no fault. -/

variable {α β γ : Type}

theorem isEmpty_of_forall₂ {R : α → β → Prop} {as : List α} {bs : List β}
    (h : List.Forall₂ R as bs) (ha : as ≠ []) : bs.isEmpty = false := by
  cases h with
  | nil => exact absurd rfl ha
  | cons => rfl

/-! ## Without collecting -/

theorem ok_bind {x : Except ShapeFault α} {f : α → Except ShapeFault β} {a : α} {b : β}
    (h : x = .ok a) (hf : f a = .ok b) : (x >>= f) = .ok b := by
  rw [h]
  exact hf

/-- A reading takes parts from the front of `cs`, gives `a` and leaves `rest`. -/
def Gets (m : Reading α) (cs : List Element) (a : α) (rest : List Element) : Prop :=
  ∀ span, m span cs = .ok (a, rest)

namespace Gets

variable {m : Reading α} {f : α → Reading β} {a : α} {b : β} {cs cs' rest : List Element}
  {r : Rule} {span : Span}

theorem bind (hm : Gets m cs a cs') (hf : Gets (f a) cs' b rest) : Gets (m >>= f) cs b rest := by
  intro span
  change (m span cs).bind (fun p => f p.1 span p.2) = _
  rw [hm span]
  exact hf span

/-- What gives a result without reading a part. -/
theorem lift {x : Except ShapeFault α} (h : x = .ok a) (hf : Gets (f a) cs b rest) :
    Gets (liftM x >>= f) cs b rest := by
  intro span
  rw [h]
  exact hf span

theorem parts (h : Gets m cs a rest) : (Node.mk r span cs).parts m = .ok a := by
  change (·.1) <$> m span cs = _
  rw [h span]
  rfl

/-- Reading that leaves nothing over. -/
theorem all_parts (h : Gets m cs a []) : (Node.mk r span cs).parts m = .ok a :=
  h.parts

end Gets

/-- Every part is built. -/
theorem exists_mapM {build : γ → Except ShapeFault β} {N : α → β → Prop} {as : List α} {ns : List γ}
    (h : List.Forall₂ (fun a n => ∃ b, build n = .ok b ∧ N a b) as ns) :
    ∃ bs, ns.mapM build = .ok bs ∧ List.Forall₂ N as bs := by
  induction h with
  | nil => exact ⟨[], rfl, .nil⟩
  | cons hn _ ih =>
      obtain ⟨b, hb, hN⟩ := hn
      obtain ⟨bs, hbs, hall⟩ := ih
      refine ⟨b :: bs, ?_, .cons hN hall⟩
      rw [List.mapM_cons, hb, hbs]
      rfl

/-! ## Collecting -/

/-- Building gives something that satisfies `Q`, and records no fault. -/
def Builds (m : Collecting α) (Q : α → Prop) : Prop :=
  ∀ s, ∃ a, m s = .ok a s ∧ Q a

namespace Builds

variable {m : Collecting α} {f : α → Collecting β} {Q : α → Prop} {R : β → Prop}

theorem done {a : α} (h : Q a) : Builds (pure a) Q :=
  fun _ => ⟨a, rfl, h⟩

theorem bind (hm : Builds m Q) (hf : ∀ a, Q a → Builds (f a) R) : Builds (m >>= f) R := by
  intro s
  obtain ⟨a, ha, hQ⟩ := hm s
  obtain ⟨b, hb, hR⟩ := hf a hQ s
  refine ⟨b, ?_, hR⟩
  rw [run_bind, ha]
  exact hb

theorem mono {Q' : α → Prop} (hm : Builds m Q) (h : ∀ a, Q a → Q' a) : Builds m Q' := by
  intro s
  obtain ⟨a, ha, hQ⟩ := hm s
  exact ⟨a, ha, h a hQ⟩

/-- What gives a result without collecting gives it where faults are collected, too. -/
theorem lift {x : Except ShapeFault α} {a : α} (h : x = .ok a) {f : α → Collecting β}
    (hf : Builds (f a) R) : Builds (liftM x >>= f) R := by
  intro s
  rw [h]
  exact hf s

theorem given {x : Except ShapeFault α} {a : α} (h : x = .ok a) (ha : Q a) : Builds (liftM x) Q := by
  intro s
  rw [h]
  exact ⟨a, rfl, ha⟩

theorem keep (hm : Builds m Q) : Builds (keep m) fun a? => ∃ a, a? = some a ∧ Q a := by
  intro s
  obtain ⟨a, ha, hQ⟩ := hm s
  refine ⟨some a, ?_, a, rfl, hQ⟩
  rw [run_keep, ha]

/-- An empty slot is filled. -/
theorem setOnce {slot : Option α} {a : α} {what : String} {span : Span}
    {g : Option α → Collecting β} (hslot : slot = none) (hg : Builds (g (some a)) R) :
    Builds (setOnce slot what span a >>= g) R := by
  subst hslot
  exact hg

/-- Every part is built. -/
theorem mapM {as : List γ} {ns : List α} {N : γ → β → Prop}
    (h : List.Forall₂ (fun x n => Builds (f n) (N x)) as ns) :
    Builds (ns.mapM f) (List.Forall₂ N as) := by
  induction h with
  | nil => exact done .nil
  | cons hn _ ih =>
      rw [List.mapM_cons]
      exact hn.bind fun b hb => ih.bind fun bs hbs => done (.cons hb hbs)

theorem keepAll {as : List γ} {ns : List α} {N : γ → β → Prop}
    (h : List.Forall₂ (fun x n => Builds (f n) (N x)) as ns) :
    Builds (keepAll f ns) (List.Forall₂ N as) := by
  have hkept : List.Forall₂ (fun x n => Builds (Shape.keep (f n)) fun b? => ∃ b, b? = some b ∧ N x b)
      as ns := h.imp fun _ _ hn => hn.keep
  refine (mapM hkept).bind fun bs? hbs => done ?_
  clear h hkept
  induction hbs with
  | nil => exact .nil
  | cons hb _ ih =>
      obtain ⟨b, rfl, hb⟩ := hb
      exact .cons hb ih

end Builds

/-! ## Statement by statement -/

/-- Something that satisfies `A` is changed by statements, one after the other and without a fault,
into something that satisfies `B`. -/
def Turns (change : α → Node → Collecting α) (A : α → Prop) : List Node → (α → Prop) → Prop
  | [], B => ∀ a, A a → B a
  | n :: ns, B => ∃ C, (∀ a, A a → Builds (change a n) C) ∧ Turns change C ns B

namespace Turns

variable {change : α → Node → Collecting α} {A B C : α → Prop} {ns ms : List Node} {n : Node}

theorem one (h : ∀ a, A a → Builds (change a n) B) : Turns change A [n] B :=
  ⟨B, h, fun _ ha => ha⟩

theorem weaken {A' : α → Prop} (h : Turns change A ns B) (hA : ∀ a, A' a → A a) :
    Turns change A' ns B := by
  cases ns with
  | nil => exact fun a ha => h a (hA a ha)
  | cons n ns =>
      obtain ⟨C, hn, hns⟩ := h
      exact ⟨C, fun a ha => hn a (hA a ha), hns⟩

theorem append (h : Turns change A ns B) (h' : Turns change B ms C) :
    Turns change A (ns ++ ms) C := by
  induction ns generalizing A with
  | nil => exact h'.weaken h
  | cons n ns ih =>
      obtain ⟨D, hn, hns⟩ := h
      exact ⟨D, hn, ih hns⟩

theorem foldlM (h : Turns change A ns B) {a : α} (ha : A a) : Builds (ns.foldlM change a) B := by
  induction ns generalizing A a with
  | nil => exact .done (h a ha)
  | cons n ns ih =>
      obtain ⟨C, hn, hns⟩ := h
      rw [List.foldlM_cons]
      exact (hn a ha).bind fun b hb => ih hns hb

theorem keepChanges (h : Turns change A ns B) {a : α} (ha : A a) :
    Builds (keepChanges change a ns) B := by
  have hkept : Turns (fun a n => do return (← Shape.keep (change a n)).getD a) A ns B := by
    clear ha
    induction ns generalizing A with
    | nil => exact h
    | cons n ns ih =>
        obtain ⟨C, hn, hns⟩ := h
        refine ⟨C, fun a ha => (hn a ha).keep.bind fun b? hb => .done ?_, ih hns⟩
        obtain ⟨b, rfl, hb⟩ := hb
        exact hb
  exact hkept.foldlM ha

/-- Statements that lengthen a list, one by one. -/
theorem each {P : γ → Node → Prop} {A : List γ → α → Prop} {xs : List γ} (h : List.Forall₂ P xs ns)
    (hstep : ∀ x n, P x n → ∀ done a, A done a → Builds (change a n) (A (done ++ [x]))) :
    Turns change (A []) ns (A xs) := by
  suffices hall : ∀ done, Turns change (A done) ns (A (done ++ xs)) from hall []
  induction h with
  | nil =>
      intro done a ha
      simpa using ha
  | @cons x n xs ns hx _ ih =>
      intro done
      refine ⟨A (done ++ [x]), hstep x n hx done, ?_⟩
      simpa using ih (done ++ [x])

end Turns

end Storyworld.Shape
