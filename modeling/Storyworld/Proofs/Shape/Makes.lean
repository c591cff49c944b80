import Mathlib.Data.List.Forall2
import Storyworld.Proofs.Shape.Builds
import Storyworld.Proofs.Shape.Independence

namespace Storyworld.Shape

/-! Building that succeeds, taken apart. What is built without a fault on the way is told by what
its parts are built into, in both directions: one equivalence for each way of putting builders
together. -/

variable {α β : Type}

/-! ## Without collecting -/

theorem bind_eq_ok {x : Except ShapeFault α} {f : α → Except ShapeFault β} {b : β} :
    (x >>= f) = .ok b ↔ ∃ a, x = .ok a ∧ f a = .ok b := by
  cases x with
  | error fault => exact ⟨nofun, nofun⟩
  | ok a => exact ⟨fun h => ⟨a, rfl, h⟩, fun ⟨_, ha, h⟩ => by cases ha; exact h⟩

theorem mapM_eq_ok {f : α → Except ShapeFault β} {as : List α} {bs : List β} :
    as.mapM f = .ok bs ↔ List.Forall₂ (fun a b => f a = .ok b) as bs := by
  induction as generalizing bs with
  | nil => exact ⟨fun h => by cases h; exact .nil, fun h => by cases h; rfl⟩
  | cons a as ih =>
      simp only [List.mapM_cons, bind_eq_ok, ih, List.forall₂_cons_left_iff]
      constructor
      · rintro ⟨b, hb, bs', hbs, h⟩
        cases h
        exact ⟨b, bs', hb, hbs, rfl⟩
      · rintro ⟨b, bs', hb, hbs, rfl⟩
        exact ⟨b, hb, bs', hbs, rfl⟩

section

variable {r : Reading α} {f : α → Reading β} {span : Span} {cs rest : List Element} {a : α} {b : β}
  {what : String} {n : Node}

theorem reads_bind : (r >>= f) span cs = .ok (b, rest) ↔
    ∃ a cs', r span cs = .ok (a, cs') ∧ f a span cs' = .ok (b, rest) := by
  have hrun : (r >>= f) span cs = (r span cs >>= fun p => f p.1 span p.2) := rfl
  rw [hrun, bind_eq_ok, Prod.exists]

theorem reads_done {a' : α} : (pure a : Reading α) span cs = .ok (a', rest) ↔ a = a' ∧ cs = rest := by
  have hrun : (pure a : Reading α) span cs = .ok (a, cs) := rfl
  rw [hrun, Except.ok.injEq, Prod.mk.injEq]

theorem reads_fail {fault : ShapeFault} :
    (throw fault : Reading α) span cs = .ok (a, rest) ↔ False :=
  ⟨nofun, nofun⟩

theorem reads_lift {x : Except ShapeFault α} :
    (liftM x : Reading α) span cs = .ok (a, rest) ↔ x = .ok a ∧ cs = rest := by
  cases x with
  | error fault => exact ⟨nofun, nofun⟩
  | ok a' => rw [show (liftM (Except.ok a') : Reading α) span cs = .ok (a', cs) from rfl]; simp

theorem reads_token {t : Token} :
    token what span cs = .ok (t, rest) ↔ cs = .token t :: rest := by
  match cs with
  | [] | .node n :: cs => exact ⟨nofun, nofun⟩
  | .token u :: cs =>
      rw [show token what span (.token u :: cs) = .ok (u, cs) from rfl]
      simp

theorem reads_child : child what span cs = .ok (n, rest) ↔ cs = .node n :: rest := by
  match cs with
  | [] | .token t :: cs => exact ⟨nofun, nofun⟩
  | .node m :: cs =>
      rw [show child what span (.node m :: cs) = .ok (m, cs) from rfl]
      simp

theorem parts_eq_ok : n.parts r = .ok a ↔ ∃ rest, r n.span n.children = .ok (a, rest) := by
  change (·.1) <$> r n.span n.children = _ ↔ _
  cases r n.span n.children with
  | error fault => exact ⟨nofun, nofun⟩
  | ok p => simp [Prod.ext_iff]

theorem head_eq_ok : n.head r = .ok (a, rest) ↔ r n.span n.children = .ok (a, rest) :=
  Iff.rfl

end

/-! ## Collecting -/

/-- Something is built, and no fault is found. -/
def Makes (m : Collecting α) (a : α) : Prop :=
  m [] = .ok a []

section

variable {m : Collecting α} {f : α → Collecting β} {x : Except ShapeFault α} {a : α} {b : β}
  {fault : ShapeFault}

theorem exists_makes (h : faults m = []) : ∃ a, Makes m a := by
  unfold faults at h
  cases hm : m [] with
  | error fault s => simp [hm] at h
  | ok a s =>
      rw [hm] at h
      exact ⟨a, hm.trans (by rw [show s = [] from h])⟩

/-- What is built without a fault is built so behind other faults, too. -/
theorem Makes.builds (h : Makes m a) (hm : Blind m) : Builds m (· = a) := by
  intro s
  refine ⟨a, ?_, rfl⟩
  rw [hm s, h]
  exact congrArg (EStateM.Result.ok a) (List.append_nil s)

theorem makes_done {a' : α} : Makes (pure a) a' ↔ a = a' := by
  change EStateM.Result.ok a [] = .ok a' [] ↔ _
  simp

theorem makes_fail : Makes (throw fault) a ↔ False :=
  ⟨nofun, nofun⟩

theorem makes_lift : Makes (liftM x) a ↔ x = .ok a := by
  cases x with
  | error fault => exact ⟨nofun, nofun⟩
  | ok a' => exact makes_done.trans (by simp)

/-- What is built behind something else takes back none of its faults. -/
theorem makes_bind (hf : ∀ a, Blind (f a)) :
    Makes (m >>= f) b ↔ ∃ a, Makes m a ∧ Makes (f a) b := by
  unfold Makes
  rw [run_bind]
  cases m [] with
  | error fault s => exact ⟨nofun, nofun⟩
  | ok a s =>
      change f a s = _ ↔ _
      rw [hf a s]
      cases hfa : f a [] with
      | error fault s' => simp +contextual [behind, hfa]
      | ok b' s' =>
          constructor
          · intro h
            obtain ⟨rfl, hs⟩ := EStateM.Result.ok.inj h
            obtain ⟨rfl, rfl⟩ := List.append_eq_nil_iff.mp hs
            exact ⟨a, rfl, hfa⟩
          · rintro ⟨a', ha, h⟩
            cases ha
            exact hfa.symm.trans h

theorem makes_given : Makes (liftM x >>= f) b ↔ ∃ a, x = .ok a ∧ Makes (f a) b := by
  cases x with
  | error fault => exact ⟨nofun, nofun⟩
  | ok a => exact ⟨fun h => ⟨a, rfl, h⟩, fun ⟨_, ha, h⟩ => by cases ha; exact h⟩

/-- A check in front of a builder. -/
theorem makes_unless {p : Prop} [Decidable p] :
    Makes (if p then (throw fault : Collecting PUnit) >>= fun _ => m else m) a ↔ ¬p ∧ Makes m a := by
  split <;> rename_i hp
  · exact ⟨nofun, fun h => absurd hp h.1⟩
  · simp [hp]

theorem makes_report (hf : Blind (f a)) : ¬Makes (report fault >>= fun _ => f a) b := by
  intro h
  have hrun : (report fault >>= fun _ => f a) [] = f a [fault] := rfl
  rw [Makes, hrun, hf] at h
  cases hfa : f a [] <;> simp [behind, hfa] at h

/-- A slot is filled without a fault where it is empty. -/
theorem makes_setOnce {slot : Option α} {what : String} {span : Span} {g : Option α → β} :
    Makes (do return g (← setOnce slot what span a)) b ↔ slot = none ∧ g (some a) = b := by
  cases slot with
  | none => exact makes_done.trans (by simp)
  | some old => exact ⟨nofun, nofun⟩

theorem makes_keep {a? : Option α} : Makes (keep m) a? ↔ ∃ a, a? = some a ∧ Makes m a := by
  unfold Makes
  rw [run_keep]
  cases m [] with
  | error fault s => simp
  | ok a s =>
      constructor
      · intro h
        cases h
        exact ⟨a, rfl, rfl⟩
      · rintro ⟨a', rfl, ha⟩
        cases ha
        rfl

/-- What is made of one statement of a block. -/
theorem makes_getD {a' : α} : Makes (do return (← keep m).getD a) a' ↔ Makes m a' := by
  rw [makes_bind fun _ => Blind.done _]
  simp only [makes_keep, makes_done]
  constructor
  · rintro ⟨_, ⟨a', rfl, ha'⟩, rfl⟩
    exact ha'
  · exact fun h => ⟨some a', ⟨a', rfl, h⟩, rfl⟩

/-! ### Lists -/

theorem makes_mapM {as : List α} {bs : List β} (hf : ∀ a, Blind (f a)) :
    Makes (as.mapM f) bs ↔ List.Forall₂ (fun a b => Makes (f a) b) as bs := by
  induction as generalizing bs with
  | nil => exact makes_done.trans (by simp [eq_comm])
  | cons a as ih =>
      have htail (b : β) : Makes (do return b :: (← as.mapM f)) bs ↔
          ∃ bs', List.Forall₂ (fun a b => Makes (f a) b) as bs' ∧ b :: bs' = bs := by
        rw [makes_bind fun bs => .done _]
        simp only [ih, makes_done]
      rw [List.mapM_cons, makes_bind fun b => (Blind.mapM hf).bind fun bs => .done _,
        List.forall₂_cons_left_iff]
      simp only [htail]
      constructor
      · rintro ⟨b, hb, bs', hbs, rfl⟩
        exact ⟨b, bs', hb, hbs, rfl⟩
      · rintro ⟨b, bs', hb, hbs, rfl⟩
        exact ⟨b, hb, bs', hbs, rfl⟩

/-- Where no fault is found, every part is built. -/
theorem makes_keepAll {as : List α} {bs : List β} (hf : ∀ a, Blind (f a)) :
    Makes (keepAll f as) bs ↔ List.Forall₂ (fun a b => Makes (f a) b) as bs := by
  unfold keepAll
  rw [makes_bind fun _ => Blind.done _]
  simp only [makes_mapM fun a => (hf a).keep, makes_done, makes_keep]
  constructor
  · rintro ⟨bs?, hall, rfl⟩
    induction hall with
    | nil => exact .nil
    | cons hb _ ih =>
        obtain ⟨b, rfl, hb⟩ := hb
        exact .cons hb ih
  · intro hall
    refine ⟨bs.map some, ?_, by simp [List.reduceOption]⟩
    exact List.forall₂_map_right_iff.mpr (hall.imp fun _ b hb => ⟨b, rfl, hb⟩)

section

variable {step : β → α → Collecting β} {T : List α → β → Prop} {start : β}

/-- What a run of statements makes, told by what each one adds to those before it. -/
theorem makes_foldlM {as : List α} (hblind : ∀ b a, Blind (step b a))
    (hstart : ∀ b, T [] b ↔ start = b)
    (hstep : ∀ as a b', T (as ++ [a]) b' ↔ ∃ b, T as b ∧ Makes (step b a) b') :
    Makes (as.foldlM step start) b ↔ T as b := by
  induction as using List.reverseRecOn generalizing b with
  | nil => exact makes_done.trans (hstart b).symm
  | append_singleton as a ih =>
      rw [hstep, List.foldlM_append, makes_bind fun b => Blind.foldlM hblind]
      simp only [ih, List.foldlM_cons, List.foldlM_nil, bind_pure]

end

theorem makes_keepChanges {change : β → Node → Collecting β} {T : List Node → β → Prop} {start : β}
    {ns : List Node} (hblind : ∀ b n, Blind (change b n)) (hstart : ∀ b, T [] b ↔ start = b)
    (hstep : ∀ ns n b', T (ns ++ [n]) b' ↔ ∃ b, T ns b ∧ Makes (change b n) b') :
    Makes (keepChanges change start ns) b ↔ T ns b := by
  refine makes_foldlM (fun b n => (hblind b n).keep.bind fun _ => .done _) hstart fun ns n b' => ?_
  rw [hstep]
  exact exists_congr fun b => and_congr_right fun _ => makes_getD.symm

/-! ### Blocks -/

section

variable {change : α → Node → Collecting α} {b b' : α} {k : Node} {ns : List Node}
  {fs gs : List ShapeFault} (hblind : ∀ b n, Blind (change b n))

include hblind

theorem run_keepChanges_cons (hk : change b k [] = .ok b' fs)
    (hns : keepChanges change b' ns [] = .ok a gs) :
    keepChanges change b (k :: ns) [] = .ok a (fs ++ gs) := by
  have hfirst : (do return (← keep (change b k)).getD b : Collecting α) [] = .ok b' fs := by
    rw [run_bind, run_keep, hk]
    rfl
  unfold keepChanges
  rw [List.foldlM_cons, run_bind, hfirst]
  change keepChanges change b' ns fs = _
  rw [Blind.keepChanges hblind, hns]
  rfl

theorem makes_keepChanges_cons : Makes (keepChanges change b (k :: ns)) a ↔
    ∃ b', Makes (change b k) b' ∧ Makes (keepChanges change b' ns) a := by
  have hrun : keepChanges change b (k :: ns) =
      (do return (← keep (change b k)).getD b) >>= fun b' => keepChanges change b' ns := by
    unfold keepChanges
    rw [List.foldlM_cons]
  rw [hrun, makes_bind fun _ => Blind.keepChanges hblind]
  exact exists_congr fun b' => and_congr_left fun _ => makes_getD

/-- A block that begins in another way. -/
theorem exists_keepChanges {R : α → α → Prop}
    (hsame : ∀ b b' k a, R b b' → Makes (change b k) a → ∃ a', Makes (change b' k) a' ∧ R a a')
    (hb : R b b') (ha : Makes (keepChanges change b ns) a) :
    ∃ a', Makes (keepChanges change b' ns) a' ∧ R a a' := by
  induction ns generalizing b b' with
  | nil =>
      obtain rfl := makes_done.mp ha
      exact ⟨b', makes_done.mpr rfl, hb⟩
  | cons k ns ih =>
      obtain ⟨c, hc, ha⟩ := (makes_keepChanges_cons hblind).mp ha
      obtain ⟨c', hc', hR⟩ := hsame b b' k c hb hc
      obtain ⟨a', ha', hR⟩ := ih hR ha
      exact ⟨a', (makes_keepChanges_cons hblind).mpr ⟨c', hc', ha'⟩, hR⟩

end

end

end Storyworld.Shape
