import Storyworld.Tree

namespace Storyworld

/-! What holds throughout a tree: a property of all its nodes and one of all its tokens. -/

mutual

/-- Every node of a tree satisfies `P`, and every token in it `T`. -/
def Node.Every (P : Node → Prop) (T : Token → Prop) : Node → Prop
  | .mk r s cs => P (.mk r s cs) ∧ EveryIn P T cs

def EveryIn (P : Node → Prop) (T : Token → Prop) : List Element → Prop
  | [] => True
  | c :: cs => Element.Every P T c ∧ EveryIn P T cs

def Element.Every (P : Node → Prop) (T : Token → Prop) : Element → Prop
  | .node n => n.Every P T
  | .token t => T t

end

mutual

/-- A node and all nodes below it. -/
def Node.family : Node → List Node
  | .mk r s cs => .mk r s cs :: familyIn cs

def familyIn : List Element → List Node
  | [] => []
  | c :: cs => c.family ++ familyIn cs

def Element.family : Element → List Node
  | .node n => n.family
  | .token _ => []

end

mutual

/-- All tokens in a tree. -/
def Node.leaves : Node → List Token
  | .mk _ _ cs => leavesIn cs

def leavesIn : List Element → List Token
  | [] => []
  | c :: cs => c.leaves ++ leavesIn cs

def Element.leaves : Element → List Token
  | .node n => n.leaves
  | .token t => [t]

end

variable {P P' : Node → Prop} {T T' : Token → Prop}

theorem everyIn_iff {cs : List Element} : EveryIn P T cs ↔ ∀ c ∈ cs, c.Every P T := by
  induction cs with
  | nil => simp [EveryIn]
  | cons c cs ih => simp [EveryIn, ih]

@[simp] theorem Element.every_node {n : Node} : (Element.node n).Every P T ↔ n.Every P T := by
  simp [Element.Every]

@[simp] theorem Element.every_token {t : Token} : (Element.token t).Every P T ↔ T t := by
  simp [Element.Every]

@[simp] theorem Element.nodes_map (ns : List Node) : Element.nodes (ns.map .node) = ns := by
  simp [Element.nodes, List.filterMap_map, Function.comp_def, Element.node?]

@[simp] theorem Element.nodes_append (cs ds : List Element) :
    Element.nodes (cs ++ ds) = Element.nodes cs ++ Element.nodes ds :=
  List.filterMap_append

@[simp] theorem Element.nodes_cons_node (n : Node) (cs : List Element) :
    Element.nodes (.node n :: cs) = n :: Element.nodes cs :=
  rfl

theorem Element.mem_nodes {cs : List Element} {n : Node} :
    n ∈ Element.nodes cs ↔ Element.node n ∈ cs := by
  constructor
  · intro h
    obtain ⟨c, hc, hn⟩ := List.mem_filterMap.mp h
    cases c <;> simp_all [Element.node?]
  · intro h
    exact List.mem_filterMap.mpr ⟨_, h, rfl⟩

@[simp] theorem Element.tokens_map (ts : List Token) : Element.tokens (ts.map .token) = ts := by
  simp [Element.tokens, List.filterMap_map, Function.comp_def, Element.token?]

namespace Node

@[simp] theorem every_mk {r : Rule} {s : Span} {cs : List Element} :
    (Node.mk r s cs).Every P T ↔ P (.mk r s cs) ∧ ∀ c ∈ cs, c.Every P T := by
  rw [Node.Every, everyIn_iff]

theorem every_iff {n : Node} : n.Every P T ↔ P n ∧ ∀ c ∈ n.children, c.Every P T := by
  cases n
  exact every_mk

theorem Every.here {n : Node} (h : n.Every P T) : P n :=
  (every_iff.mp h).1

theorem Every.child {n : Node} (h : n.Every P T) {c : Element} (hc : c ∈ n.children) :
    c.Every P T :=
  (every_iff.mp h).2 c hc

theorem mem_nodes {n m : Node} : m ∈ n.nodes ↔ Element.node m ∈ n.children :=
  Element.mem_nodes

theorem Every.node {n m : Node} (h : n.Every P T) (hm : m ∈ n.nodes) : m.Every P T :=
  Element.every_node.mp (h.child (mem_nodes.mp hm))

end Node

/-! ## The tree as lists -/

mutual

theorem Node.every_iff_lists : ∀ n : Node,
    n.Every P T ↔ (∀ m ∈ n.family, P m) ∧ ∀ t ∈ n.leaves, T t
  | .mk r s cs => by
    have ih := everyIn_iff_lists cs
    simp only [Node.Every, Node.family, Node.leaves, ih, List.mem_cons, forall_eq_or_imp,
      and_assoc]

theorem everyIn_iff_lists : ∀ cs : List Element,
    EveryIn P T cs ↔ (∀ m ∈ familyIn cs, P m) ∧ ∀ t ∈ leavesIn cs, T t
  | [] => by simp [EveryIn, familyIn, leavesIn]
  | c :: cs => by
    have ihc := Element.every_iff_lists c
    have ih := everyIn_iff_lists cs
    simp only [EveryIn, familyIn, leavesIn, ihc, ih, List.mem_append]
    constructor
    · rintro ⟨⟨h₁, h₂⟩, h₃, h₄⟩
      exact ⟨fun m hm => hm.elim (h₁ m) (h₃ m), fun t ht => ht.elim (h₂ t) (h₄ t)⟩
    · rintro ⟨h₁, h₂⟩
      exact ⟨⟨fun m hm => h₁ m (.inl hm), fun t ht => h₂ t (.inl ht)⟩,
        fun m hm => h₁ m (.inr hm), fun t ht => h₂ t (.inr ht)⟩

theorem Element.every_iff_lists : ∀ c : Element,
    c.Every P T ↔ (∀ m ∈ c.family, P m) ∧ ∀ t ∈ c.leaves, T t
  | .node n => by
    have ih := Node.every_iff_lists n
    simpa [Element.Every, Element.family, Element.leaves] using ih
  | .token t => by simp [Element.Every, Element.family, Element.leaves]

end

theorem Node.Every.mono {n : Node} (h : n.Every P T) (hP : ∀ m, P m → P' m)
    (hT : ∀ t, T t → T' t) : n.Every P' T' := by
  rw [Node.every_iff_lists] at h ⊢
  exact ⟨fun m hm => hP m (h.1 m hm), fun t ht => hT t (h.2 t ht)⟩

theorem Element.Every.mono {c : Element} (h : c.Every P T) (hP : ∀ m, P m → P' m)
    (hT : ∀ t, T t → T' t) : c.Every P' T' := by
  rw [Element.every_iff_lists] at h ⊢
  exact ⟨fun m hm => hP m (h.1 m hm), fun t ht => hT t (h.2 t ht)⟩

theorem Node.Every.and {n : Node} (h : n.Every P T) (h' : n.Every P' T') :
    n.Every (fun m => P m ∧ P' m) (fun t => T t ∧ T' t) := by
  rw [Node.every_iff_lists] at h h' ⊢
  exact ⟨fun m hm => ⟨h.1 m hm, h'.1 m hm⟩, fun t ht => ⟨h.2 t ht, h'.2 t ht⟩⟩

/-! ## Families -/

theorem mem_familyIn {cs : List Element} {m : Node} : m ∈ familyIn cs ↔ ∃ c ∈ cs, m ∈ c.family := by
  induction cs with
  | nil => simp [familyIn]
  | cons c cs ih => simp [familyIn, ih]

/-- What is in a tree is its root, or in one of the trees right below it. -/
theorem Node.mem_family {n m : Node} : m ∈ n.family ↔ m = n ∨ ∃ k ∈ n.nodes, m ∈ k.family := by
  cases n with
  | mk r s cs =>
      rw [Node.family, List.mem_cons, mem_familyIn]
      refine or_congr_right ⟨?_, ?_⟩
      · rintro ⟨c, hc, hm⟩
        cases c with
        | node k => exact ⟨k, mem_nodes.mpr hc, by simpa [Element.family] using hm⟩
        | token t => simp [Element.family] at hm
      · rintro ⟨k, hk, hm⟩
        exact ⟨.node k, mem_nodes.mp hk, by simpa [Element.family] using hm⟩

theorem Node.sizeOf_lt {n m : Node} (hm : m ∈ n.nodes) : sizeOf m < sizeOf n := by
  have hlt := List.sizeOf_lt_of_mem (mem_nodes.mp hm)
  cases n
  simp_all [Node.children]
  omega

theorem Node.self_mem_family (n : Node) : n ∈ n.family :=
  mem_family.mpr (.inl rfl)

/-- What holds throughout a tree holds throughout every tree in it. -/
theorem Node.Every.of_mem_family {n m : Node} (h : n.Every P T) (hm : m ∈ n.family) :
    m.Every P T := by
  rcases mem_family.mp hm with rfl | ⟨k, hk, hm⟩
  · exact h
  · exact of_mem_family (h.node hk) hm
termination_by sizeOf n
decreasing_by exact sizeOf_lt hk

/-- A tree is made of its own nodes and tokens. -/
theorem Node.every_self (n : Node) : n.Every (· ∈ n.family) (· ∈ n.leaves) := by
  rw [Node.every_iff_lists]
  exact ⟨fun _ h => h, fun _ h => h⟩

end Storyworld
