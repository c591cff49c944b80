import Mathlib.Data.List.Pairwise
import Mathlib.Data.List.Perm.Basic
import Storyworld.Proofs.Shape.Makes

namespace Storyworld

/-! Records told by tables of their fields. A field names the statements that are about it and how
what they say is kept. A block of statements is built without a fault exactly into the record whose
fields keep what the statements say, so that it matters only within a list in which order they
stand. -/

/-! ## Keeping what is said -/

/-- How what statements say about one thing is kept. -/
structure Keeping (α : Type) where
  /-- What is kept where nothing is said. -/
  empty : α
  /-- What one more statement makes of what was kept before. -/
  Takes : α → Node → α → Prop
  /-- What is kept of some statements. -/
  Holds : α → List Node → Prop
  /-- Whether the order of the statements matters. -/
  ordered : Bool
  holds_nil {a : α} : Holds a [] ↔ empty = a
  holds_snoc {a' : α} {ns : List Node} {n : Node} :
    Holds a' (ns ++ [n]) ↔ ∃ a, Holds a ns ∧ Takes a n a'
  holds_perm {a : α} {ns ms : List Node} :
    ordered = false → ns.Perm ms → Holds a ns → Holds a ms

section

variable {α : Type} {P : α → Node → Prop} {as : List α} {n : Node} {ns ms : List Node}

theorem forall₂_snoc : List.Forall₂ P as (ns ++ [n]) ↔
    ∃ front a, List.Forall₂ P front ns ∧ P a n ∧ front ++ [a] = as := by
  rw [← List.forall₂_reverse_iff, List.reverse_append, List.reverse_singleton,
    List.singleton_append, List.forall₂_cons_right_iff]
  constructor
  · rintro ⟨a, back, ha, hback, has⟩
    refine ⟨back.reverse, a, ?_, ha, ?_⟩
    · rwa [← List.forall₂_reverse_iff, List.reverse_reverse]
    · rw [← List.reverse_cons, ← has, List.reverse_reverse]
  · rintro ⟨front, a, hfront, ha, rfl⟩
    exact ⟨a, front.reverse, ha, List.forall₂_reverse_iff.mpr hfront, by simp⟩

theorem eq_of_perm_of_length_le_one (hperm : ns.Perm ms) (hlen : ns.length ≤ 1) : ns = ms := by
  match ns with
  | [] => exact hperm.nil_eq
  | [m] => exact List.singleton_perm.mp hperm
  | m :: m' :: _ => simp at hlen

namespace Keeping

/-- A slot, which is filled once. There is at most one statement about it, and it holds what that
one says. -/
def slot (P : α → Node → Prop) : Keeping (Option α) where
  empty := none
  Takes a? n a?' := ∃ a, P a n ∧ a? = none ∧ some a = a?'
  Holds a? ns := List.Forall₂ P a?.toList ns
  ordered := false
  holds_nil {a?} := by cases a? <;> simp
  holds_snoc {a?' ns n} := by
    rw [forall₂_snoc]
    constructor
    · rintro ⟨front, a, hfront, ha, hlist⟩
      obtain ⟨rfl, rfl⟩ : front = [] ∧ a?' = some a := by
        cases a?' <;> cases front <;> simp_all
      exact ⟨none, hfront, a, ha, rfl, rfl⟩
    · rintro ⟨_, hnone, a, ha, rfl, rfl⟩
      exact ⟨[], a, hnone, ha, rfl⟩
  holds_perm {a? ns ms} _ hperm h := by
    have hlen : ns.length ≤ 1 := by
      rw [← h.length_eq]
      cases a? <;> simp
    rwa [← eq_of_perm_of_length_le_one hperm hlen]

/-- A list with an entry for each statement, in the order of the statements. -/
def list (P : α → Node → Prop) : Keeping (List α) where
  empty := []
  Takes as n as' := ∃ a, P a n ∧ as ++ [a] = as'
  Holds as ns := List.Forall₂ P as ns
  ordered := true
  holds_nil := by simp [eq_comm]
  holds_snoc {as' ns n} := by
    rw [forall₂_snoc]
    simp only [exists_and_left]
  holds_perm := nofun

/-- A list that every statement may lengthen by any number of entries. -/
def joined (P : List α → Node → Prop) : Keeping (List α) where
  empty := []
  Takes as n as' := ∃ bs, P bs n ∧ as ++ bs = as'
  Holds as ns := ∃ bss, List.Forall₂ P bss ns ∧ bss.flatten = as
  ordered := true
  holds_nil := by simp
  holds_snoc {as' ns n} := by
    simp only [forall₂_snoc]
    constructor
    · rintro ⟨_, ⟨front, bs, hfront, hbs, rfl⟩, rfl⟩
      exact ⟨front.flatten, ⟨front, hfront, rfl⟩, bs, hbs, by simp⟩
    · rintro ⟨_, ⟨front, hfront, rfl⟩, bs, hbs, rfl⟩
      exact ⟨front ++ [bs], ⟨front, bs, hfront, hbs, rfl⟩, by simp⟩
  holds_perm := nofun

/-- Whether there is a statement. -/
def flag : Keeping Bool where
  empty := false
  Takes _ _ b := true = b
  Holds b ns := b = !ns.isEmpty
  ordered := false
  holds_nil := eq_comm
  holds_snoc {b ns n} := by cases b <;> simp
  holds_perm {b ns ms} _ hperm h := by
    have hlen := hperm.length_eq
    cases ns <;> cases ms <;> simp_all

/-- A statement may stand for another one that says the same. -/
theorem holds_replace (k : Keeping α) {a : α} {m m' : Node}
    (h : ∀ {a a'}, k.Takes a m a' → k.Takes a m' a') (hm : k.Holds a (ns ++ m :: ms)) :
    k.Holds a (ns ++ m' :: ms) := by
  induction ms using List.reverseRecOn generalizing a with
  | nil =>
      obtain ⟨b, hb, ha⟩ := k.holds_snoc.mp hm
      exact k.holds_snoc.mpr ⟨b, hb, h ha⟩
  | append_singleton ms n ih =>
      rw [← List.cons_append, ← List.append_assoc] at hm ⊢
      obtain ⟨b, hb, ha⟩ := k.holds_snoc.mp hm
      exact k.holds_snoc.mpr ⟨b, ih hb, ha⟩

end Keeping

end

/-! ## Tables -/

/-- A field of a record, and the statements that are about it. -/
structure Field (σ : Type) where
  {α : Type}
  rules : List Rule
  keeping : Keeping α
  get : σ → α
  set : σ → α → σ

variable {σ φ : Type} {fields : List (Field σ)} {f g : Field σ} {b b' : σ} {n : Node}
  {ns ms : List Node}

/-- A record whose fields keep what some statements say. Every statement is about a field. -/
structure Gathers (fields : List (Field σ)) (b : σ) (ns : List Node) : Prop where
  kept : ∀ f ∈ fields, f.keeping.Holds (f.get b) (ns.filter (·.rule ∈ f.rules))
  told : ∀ n ∈ ns, ∃ f ∈ fields, n.rule ∈ f.rules

/-- Where nothing is said, the fields are empty. -/
theorem gathers_nil : Gathers fields b [] ↔ ∀ f ∈ fields, f.keeping.empty = f.get b := by
  constructor
  · exact fun h f hf => f.keeping.holds_nil.mp (h.kept f hf)
  · exact fun h => ⟨fun f hf => f.keeping.holds_nil.mpr (h f hf), by simp⟩

/-- What one more statement makes of a record: the field that it is about takes what it says. -/
def Steps (fields : List (Field σ)) (b : σ) (n : Node) (b' : σ) : Prop :=
  ∃ f ∈ fields, n.rule ∈ f.rules ∧ ∃ a, f.keeping.Takes (f.get b) n a ∧ f.set b a = b'

/-- Fields of a record that have nothing to do with one another; what they leave out is `fixed`. -/
structure Lawful (fields : List (Field σ)) (fixed : σ → φ) : Prop where
  get_set : ∀ f ∈ fields, ∀ b a, f.get (f.set b a) = a
  apart : fields.Pairwise fun f g =>
    (∀ b a, g.get (f.set b a) = g.get b) ∧ ∀ b a, f.get (g.set b a) = f.get b
  rules : (fields.map (·.rules)).Pairwise fun rs rs' => ∀ r ∈ rs, r ∉ rs'
  fixed_set : ∀ f ∈ fields, ∀ b a, fixed (f.set b a) = fixed b
  ext : ∀ {b b'}, fixed b = fixed b' → (∀ f ∈ fields, f.get b = f.get b') → b = b'

@[simp] theorem steps_nil : ¬Steps [] b n b' := by
  simp [Steps]

@[simp] theorem steps_cons : Steps (f :: fields) b n b' ↔
    n.rule ∈ f.rules ∧ (∃ a, f.keeping.Takes (f.get b) n a ∧ f.set b a = b') ∨
      Steps fields b n b' := by
  simp [Steps]

/-- A statement that is about none of the fields. -/
theorem not_steps (h : ∀ f ∈ fields, n.rule ∉ f.rules) : ¬Steps fields b n b' :=
  fun ⟨f, hf, hr, _⟩ => h f hf hr

namespace Lawful

variable {fixed : σ → φ}

theorem get_set_other (h : Lawful fields fixed) (hf : f ∈ fields) (hg : g ∈ fields) (hne : f ≠ g)
    (b : σ) (a : f.α) : g.get (f.set b a) = g.get b :=
  have _ : Std.Symm fun f g : Field σ =>
      (∀ b a, g.get (f.set b a) = g.get b) ∧ ∀ b a, f.get (g.set b a) = f.get b :=
    ⟨fun _ _ => And.symm⟩
  (h.apart.forall hf hg hne).1 b a

/-- Whatever a field held before it is forgotten. -/
theorem set_set_get (h : Lawful fields fixed) (hf : f ∈ fields) (b : σ) (a : f.α) :
    f.set (f.set b a) (f.get b) = b := by
  refine h.ext (by rw [h.fixed_set f hf, h.fixed_set f hf]) fun g hg => ?_
  by_cases hne : f = g
  · subst hne
    exact h.get_set f hf _ _
  · rw [h.get_set_other hf hg hne, h.get_set_other hf hg hne]

theorem not_mem_rules (h : Lawful fields fixed) (hf : f ∈ fields) (hg : g ∈ fields) (hne : f ≠ g)
    {r : Rule} (hr : r ∈ f.rules) : r ∉ g.rules := by
  have _ : Std.Symm fun f g : Field σ => ∀ r ∈ f.rules, r ∉ g.rules :=
    ⟨fun _ _ hfg r hg hf => hfg r hf hg⟩
  exact (List.pairwise_map.mp h.rules).forall hf hg hne r hr

/-- What the fields keep when the one that a statement is about has taken what it says. -/
theorem gathers_snoc (h : Lawful fields fixed) :
    Gathers fields b' (ns ++ [n]) ↔ ∃ b, fixed b = fixed b' ∧ Gathers fields b ns ∧ Steps fields b n b' := by
  constructor
  · rintro ⟨hkept, htold⟩
    obtain ⟨f, hf, hr⟩ := htold n (by simp)
    have hlast := hkept f hf
    rw [List.filter_append, List.filter_cons_of_pos (by simpa using hr), List.filter_nil,
      f.keeping.holds_snoc] at hlast
    obtain ⟨a, ha, htakes⟩ := hlast
    refine ⟨f.set b' a, h.fixed_set f hf b' a, ⟨fun g hg => ?_, fun m hm => htold m (by simp [hm])⟩,
      f, hf, hr, f.get b', ?_, ?_⟩
    · by_cases hne : f = g
      · subst hne
        rwa [h.get_set f hf]
      · have hother := hkept g hg
        rw [List.filter_append, List.filter_cons_of_neg, List.filter_nil, List.append_nil] at hother
        · rwa [h.get_set_other hf hg hne]
        · simpa using h.not_mem_rules hf hg hne hr
    · rwa [h.get_set f hf]
    · exact h.set_set_get hf b' a
  · rintro ⟨b, -, ⟨hkept, htold⟩, f, hf, hr, a, htakes, rfl⟩
    refine ⟨fun g hg => ?_, fun m hm => ?_⟩
    · rw [List.filter_append]
      by_cases hne : f = g
      · subst hne
        rw [List.filter_cons_of_pos (by simpa using hr), List.filter_nil, f.keeping.holds_snoc,
          h.get_set f hf]
        exact ⟨_, hkept f hf, htakes⟩
      · rw [List.filter_cons_of_neg, List.filter_nil, List.append_nil, h.get_set_other hf hg hne]
        · exact hkept g hg
        · simpa using h.not_mem_rules hf hg hne hr
    · rcases List.mem_append.mp hm with hm | hm
      · exact htold m hm
      · exact ⟨f, hf, List.mem_singleton.mp hm ▸ hr⟩

end Lawful

/-- Statements change a record by the table of its fields: each one fills the field it is about. -/
structure GoesBy (fields : List (Field σ)) (fixed : σ → φ) (change : σ → Node → Shape.Collecting σ) :
    Prop where
  lawful : Lawful fields fixed
  blind : ∀ b n, Shape.Blind (change b n)
  steps : ∀ {b n b'}, Shape.Makes (change b n) b' ↔ Steps fields b n b'

namespace GoesBy

open Shape

variable {fixed : σ → φ} {change : σ → Node → Collecting σ} {start : σ}

theorem steps_from (h : GoesBy fields fixed change) :
    fixed b' = fixed start ∧ Gathers fields b' (ns ++ [n]) ↔
      ∃ b, (fixed b = fixed start ∧ Gathers fields b ns) ∧ Makes (change b n) b' := by
  rw [h.lawful.gathers_snoc]
  simp only [h.steps]
  constructor
  · rintro ⟨hfixed, b, hb, hgathers, hsteps⟩
    exact ⟨b, ⟨hb.trans hfixed, hgathers⟩, hsteps⟩
  · rintro ⟨b, ⟨hb, hgathers⟩, hsteps⟩
    have hfixed : fixed b' = fixed b := by
      obtain ⟨f, hf, -, a, -, rfl⟩ := hsteps
      exact h.lawful.fixed_set f hf b a
    exact ⟨hfixed.trans hb, b, hfixed.symm, hgathers, hsteps⟩

theorem start_iff (h : GoesBy fields fixed change)
    (hstart : ∀ f ∈ fields, f.keeping.empty = f.get start) :
    fixed b = fixed start ∧ Gathers fields b [] ↔ start = b := by
  constructor
  · rintro ⟨hfixed, hgathers⟩
    refine h.lawful.ext hfixed.symm fun f hf => ?_
    rw [← hstart f hf]
    exact gathers_nil.mp hgathers f hf
  · rintro rfl
    exact ⟨rfl, gathers_nil.mpr hstart⟩

/-- A block is built without a fault exactly into what gathers its statements. -/
theorem makes_foldlM (h : GoesBy fields fixed change)
    (hstart : ∀ f ∈ fields, f.keeping.empty = f.get start) :
    Makes (ns.foldlM change start) b ↔ fixed b = fixed start ∧ Gathers fields b ns :=
  Shape.makes_foldlM (T := fun ns b => fixed b = fixed start ∧ Gathers fields b ns) h.blind
    (fun _ => h.start_iff hstart) fun _ _ _ => h.steps_from

theorem makes_keepChanges (h : GoesBy fields fixed change)
    (hstart : ∀ f ∈ fields, f.keeping.empty = f.get start) :
    Makes (keepChanges change start ns) b ↔ fixed b = fixed start ∧ Gathers fields b ns :=
  Shape.makes_keepChanges (T := fun ns b => fixed b = fixed start ∧ Gathers fields b ns) h.blind
    (fun _ => h.start_iff hstart) fun _ _ _ => h.steps_from

end GoesBy

/-! ## Field by field -/

/-- Statements about one field, which keeps what they say. -/
structure Field.Tells (f : Field σ) (b : σ) (ns : List Node) : Prop where
  rules : ∀ n ∈ ns, n.rule ∈ f.rules
  holds : f.keeping.Holds (f.get b) ns

/-- Statements about some fields, those about each of them standing together. -/
inductive TellsEach {σ : Type} (b : σ) : List (Field σ) → List Node → Prop where
  | nil : TellsEach b [] []
  | cons {f : Field σ} {fields : List (Field σ)} {ms ns : List Node} (h : f.Tells b ms)
      (hmore : TellsEach b fields ns) : TellsEach b (f :: fields) (ms ++ ns)

namespace Field.Tells

theorem filter_eq (h : f.Tells b ms) : ms.filter (·.rule ∈ f.rules) = ms :=
  List.filter_eq_self.mpr fun n hn => by simpa using h.rules n hn

theorem filter_other (h : f.Tells b ms) (hrules : ∀ r ∈ f.rules, r ∉ g.rules) :
    ms.filter (·.rule ∈ g.rules) = [] :=
  List.filter_eq_nil_iff.mpr fun n hn => by simpa using hrules _ (h.rules n hn)

theorem congr (h : f.Tells b ns) (hget : f.get b = f.get b') : f.Tells b' ns :=
  ⟨h.rules, hget ▸ h.holds⟩

end Field.Tells

namespace TellsEach

theorem one (h : f.Tells b ns) : TellsEach b [f] ns :=
  List.append_nil ns ▸ .cons h .nil

theorem append {gs : List (Field σ)} (h : TellsEach b fields ns) (h' : TellsEach b gs ms) :
    TellsEach b (fields ++ gs) (ns ++ ms) := by
  induction h with
  | nil => exact h'
  | cons h _ ih =>
      rw [List.append_assoc]
      exact .cons h ih

theorem append_inv {gs : List (Field σ)} (h : TellsEach b (fields ++ gs) ns) :
    ∃ ks ms, ns = ks ++ ms ∧ TellsEach b fields ks ∧ TellsEach b gs ms := by
  induction fields generalizing ns with
  | nil => exact ⟨[], ns, rfl, .nil, h⟩
  | cons f fields ih =>
      cases h with
      | cons h hmore =>
          obtain ⟨ks, ms, rfl, hks, hms⟩ := ih hmore
          exact ⟨_, ms, (List.append_assoc _ _ _).symm, .cons h hks, hms⟩

/-- Another record may hold the same in these fields. -/
theorem congr (h : TellsEach b fields ns) (hget : ∀ f ∈ fields, f.get b = f.get b') :
    TellsEach b' fields ns := by
  induction h with
  | nil => exact .nil
  | cons h _ ih =>
      rw [List.forall_mem_cons] at hget
      exact .cons (h.congr hget.1) (ih hget.2)

/-- Told field by field, a record gathers what is said of it. -/
theorem gathers (h : TellsEach b fields ns)
    (hrules : (fields.map (·.rules)).Pairwise fun rs rs' => ∀ r ∈ rs, r ∉ rs') :
    Gathers fields b ns := by
  induction h with
  | nil => exact ⟨by simp, by simp⟩
  | @cons f fields ms ns hms _ ih =>
      rw [List.map_cons, List.pairwise_cons, List.forall_mem_map] at hrules
      obtain ⟨hapart, hrules⟩ := hrules
      obtain ⟨hkept, htold⟩ := ih hrules
      have hothers : ns.filter (·.rule ∈ f.rules) = [] := by
        refine List.filter_eq_nil_iff.mpr fun n hn hr => ?_
        obtain ⟨g, hg, hg'⟩ := htold n hn
        exact hapart g hg _ (by simpa using hr) hg'
      refine ⟨List.forall_mem_cons.mpr ⟨?_, fun g hg => ?_⟩, fun n hn => ?_⟩
      · rw [List.filter_append, hms.filter_eq, hothers, List.append_nil]
        exact hms.holds
      · rw [List.filter_append, hms.filter_other (hapart g hg), List.nil_append]
        exact hkept g hg
      · rcases List.mem_append.mp hn with hn | hn
        · exact ⟨f, List.mem_cons_self, hms.rules n hn⟩
        · obtain ⟨g, hg, hr⟩ := htold n hn
          exact ⟨g, List.mem_cons_of_mem _ hg, hr⟩

end TellsEach

/-- The fields may stand in another order. -/
theorem Gathers.perm_fields {fields' : List (Field σ)} (h : Gathers fields b ns)
    (hfields : fields.Perm fields') : Gathers fields' b ns :=
  ⟨fun f hf => h.kept f (hfields.mem_iff.mpr hf), fun n hn => by
    obtain ⟨f, hf, hr⟩ := h.told n hn
    exact ⟨f, hfields.mem_iff.mp hf, hr⟩⟩

/-- Another record may hold the same in all fields. -/
theorem Gathers.congr (h : Gathers fields b ns) (hget : ∀ f ∈ fields, f.get b = f.get b') :
    Gathers fields b' ns :=
  ⟨fun f hf => hget f hf ▸ h.kept f hf, h.told⟩

section

variable {α : Type} {P : α → Node → Prop} {rules : List Rule}

/-- Nodes that say some values, one each. -/
theorem says_values {xs : List α} (h : List.Forall₂ (fun x n => n.rule ∈ rules ∧ P x n) xs ns) :
    (∀ n ∈ ns, n.rule ∈ rules) ∧ List.Forall₂ P xs ns := by
  obtain ⟨hrules, hvalues⟩ := (List.forall₂_and_left _ _).mp h.flip
  exact ⟨hrules, hvalues.flip⟩

theorem Field.Tells.slot {get : σ → Option α} {set : σ → Option α → σ}
    (h : List.Forall₂ (fun x n => n.rule ∈ rules ∧ P x n) (get b).toList ns) :
    Field.Tells ⟨rules, .slot P, get, set⟩ b ns :=
  ⟨(says_values h).1, (says_values h).2⟩

theorem Field.Tells.list {get : σ → List α} {set : σ → List α → σ}
    (h : List.Forall₂ (fun x n => n.rule ∈ rules ∧ P x n) (get b) ns) :
    Field.Tells ⟨rules, .list P, get, set⟩ b ns :=
  ⟨(says_values h).1, (says_values h).2⟩

end

/-! ## Records alike but for one slot -/

/-- Records that may hold something else in one of their slots. -/
structure SameBut (fields : List (Field σ)) (slot : Field σ) (b b' : σ) : Prop where
  others : ∀ g ∈ fields, g ≠ slot → g.get b' = g.get b
  empty : slot.get b' = slot.keeping.empty ↔ slot.get b = slot.keeping.empty

section

variable {fixed : σ → φ} (hf : f ∈ fields)

include hf

theorem SameBut.set (h : Lawful fields fixed) (hb : SameBut fields f b b') {x x' : f.α}
    (hx : x' = f.keeping.empty ↔ x = f.keeping.empty) : SameBut fields f (f.set b x) (f.set b' x') := by
  refine ⟨fun g hg hne => ?_, ?_⟩
  · rw [h.get_set_other hf hg hne.symm, h.get_set_other hf hg hne.symm]
    exact hb.others g hg hne
  · rwa [h.get_set f hf, h.get_set f hf]

theorem SameBut.set_other (h : Lawful fields fixed) (hb : SameBut fields f b b')
    (hg : g ∈ fields) (hne : g ≠ f) (x : g.α) : SameBut fields f (g.set b x) (g.set b' x) := by
  refine ⟨fun g' hg' hne' => ?_, ?_⟩
  · by_cases heq : g = g'
    · subst heq
      rw [h.get_set g hg, h.get_set g hg]
    · rw [h.get_set_other hg hg' heq, h.get_set_other hg hg' heq]
      exact hb.others g' hg' hne'
  · rw [h.get_set_other hg hf hne, h.get_set_other hg hf hne]
    exact hb.empty

/-- A statement says the same of records that may hold something else in a slot that is filled
once. -/
theorem GoesBy.sameBut {change : σ → Node → Shape.Collecting σ} {c : σ}
    (h : GoesBy fields fixed change)
    (hslot : ∀ {x n y}, f.keeping.Takes x n y → x = f.keeping.empty) (hb : SameBut fields f b b')
    (hc : Shape.Makes (change b n) c) :
    ∃ c', Shape.Makes (change b' n) c' ∧ SameBut fields f c c' := by
  obtain ⟨g, hg, hr, x, htakes, rfl⟩ := h.steps.mp hc
  by_cases hne : g = f
  · subst hne
    have hnone := hslot htakes
    have hget : g.get b' = g.get b := (hb.empty.mpr hnone).trans hnone.symm
    exact ⟨g.set b' x, h.steps.mpr ⟨g, hg, hr, x, hget ▸ htakes, rfl⟩, hb.set hf h.lawful Iff.rfl⟩
  · have hget := hb.others g hg hne
    exact ⟨g.set b' x, h.steps.mpr ⟨g, hg, hr, x, hget ▸ htakes, rfl⟩,
      hb.set_other hf h.lawful hg hne x⟩

end

/-! ## Statements -/

namespace Shape

variable {α : Type} {P : α → Node → Prop} {m : Collecting α} {what : String} {span : Span}

/-- A statement that fills a slot with one value. -/
theorem makes_filled {a : α} {a? : Option α} {g : Option α → σ} (ha : ∀ {x}, P x n ↔ a = x) :
    Makes (do return g (← setOnce a? what span a)) b ↔
      ∃ a?', (Keeping.slot P).Takes a? n a?' ∧ g a?' = b := by
  simp only [makes_setOnce, Keeping.slot, ha]
  constructor
  · rintro ⟨hnone, rfl⟩
    exact ⟨some a, ⟨a, rfl, hnone, rfl⟩, rfl⟩
  · rintro ⟨_, ⟨a, rfl, hnone, rfl⟩, rfl⟩
    exact ⟨hnone, rfl⟩

/-- A statement that fills a slot with what comes of its parts. -/
theorem makes_slot_of {β : Type} {m : Collecting β} {a? : Option α} {h : β → α} {g : Option α → σ}
    (hm : ∀ {a}, P a n ↔ ∃ x, Makes m x ∧ h x = a) :
    Makes (m >>= fun x => do return g (← setOnce a? what span (h x))) b ↔
      ∃ a?', (Keeping.slot P).Takes a? n a?' ∧ g a?' = b := by
  rw [makes_bind fun _ => .setOnce]
  simp only [makes_setOnce, Keeping.slot, hm]
  constructor
  · rintro ⟨x, hx, hnone, rfl⟩
    exact ⟨_, ⟨_, ⟨x, hx, rfl⟩, hnone, rfl⟩, rfl⟩
  · rintro ⟨_, ⟨_, ⟨x, hx, rfl⟩, hnone, rfl⟩, rfl⟩
    exact ⟨x, hx, hnone, rfl⟩

/-- A statement that fills a slot. -/
theorem makes_slot {a? : Option α} {g : Option α → σ} (hm : ∀ {a}, Makes m a ↔ P a n) :
    Makes (m >>= fun a => do return g (← setOnce a? what span a)) b ↔
      ∃ a?', (Keeping.slot P).Takes a? n a?' ∧ g a?' = b :=
  makes_slot_of fun {a} => by simp [hm]

/-- A statement that lengthens a list. -/
theorem makes_entry {as : List α} {k : α → σ} {g : List α → σ} (hm : ∀ {a}, Makes m a ↔ P a n)
    (hk : ∀ a, k a = g (as ++ [a])) :
    Makes (m >>= fun a => pure (k a)) b ↔ ∃ as', (Keeping.list P).Takes as n as' ∧ g as' = b := by
  rw [makes_bind fun _ => .done _]
  simp only [hm, makes_done, Keeping.list, hk]
  constructor
  · rintro ⟨a, ha, rfl⟩
    exact ⟨_, ⟨a, ha, rfl⟩, rfl⟩
  · rintro ⟨_, ⟨a, ha, rfl⟩, rfl⟩
    exact ⟨a, ha, rfl⟩

/-- A statement that lengthens a list by any number of entries. -/
theorem makes_entries {P : List α → Node → Prop} {m : Collecting (List α)} {as : List α}
    {k g : List α → σ} (hm : ∀ {a}, Makes m a ↔ P a n) (hk : ∀ bs, k bs = g (as ++ bs)) :
    Makes (m >>= fun bs => pure (k bs)) b ↔
      ∃ as', (Keeping.joined P).Takes as n as' ∧ g as' = b := by
  rw [makes_bind fun _ => .done _]
  simp only [hm, makes_done, Keeping.joined, hk]
  constructor
  · rintro ⟨a, ha, rfl⟩
    exact ⟨_, ⟨a, ha, rfl⟩, rfl⟩
  · rintro ⟨_, ⟨a, ha, rfl⟩, rfl⟩
    exact ⟨a, ha, rfl⟩

/-- A statement that only has to be there. -/
theorem makes_flag {x : Bool} {c : σ} {g : Bool → σ} (hc : c = g true) :
    Makes (pure c) b ↔ ∃ x', Keeping.flag.Takes x n x' ∧ g x' = b := by
  simp [makes_done, Keeping.flag, hc]

theorem lift_lift_bind {β γ : Type} {x : Except ShapeFault α} {y : α → Except ShapeFault β}
    {f : β → Collecting γ} : (liftM x >>= fun a => liftM (y a) >>= f) = liftM (x >>= y) >>= f := by
  cases x <;> rfl

end Shape

end Storyworld
