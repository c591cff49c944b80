import Mathlib.Order.Bounds.Defs
import Storyworld.Proofs.Tree.Grown

namespace Storyworld

/-! How deep the condition groups and schedules of a tree lie inside one another. -/

namespace Rule

/-- Whether a part lies one level deeper than the node it is a part of: the members of a condition
group do, and the body of a schedule. -/
def nests (r part : Rule) : Bool :=
  groups.contains r || schedules.contains r && part = triggerBlock

/-- The rules of nodes in which there can be neither a condition group nor a schedule. -/
def isFlat (r : Rule) : Bool :=
  !([sourceFile, triggerDef, triggerBlock] ++ statements ++ groups ++ schedules).contains r

theorem not_nests_of_isFlat {r part : Rule} (h : r.isFlat) : r.nests part = false := by
  simp_all [isFlat, nests, groups, schedules]

theorem closed_isFlat : Closed isFlat := by
  intro r
  cases r <;> decide

end Rule

mutual

/-- The greatest number of condition groups and schedules around a place in a tree. -/
def Node.nesting : Node → Nat
  | .mk r _ cs => nestingIn r cs

def nestingIn (r : Rule) : List Element → Nat
  | [] => 0
  | c :: cs => max (c.nestingUnder r) (nestingIn r cs)

def Element.nestingUnder (r : Rule) : Element → Nat
  | .node n => n.nesting + (r.nests n.rule).toNat
  | .token _ => 0

end

@[simp] theorem Element.nestingUnder_token {r : Rule} {t : Token} :
    (Element.token t).nestingUnder r = 0 := by
  rw [nestingUnder]

theorem nestingIn_cons_le {r : Rule} {c : Element} {cs : List Element} {k : Nat} :
    nestingIn r (c :: cs) ≤ k ↔ c.nestingUnder r ≤ k ∧ nestingIn r cs ≤ k := by
  rw [nestingIn, Nat.max_le]

theorem nestingIn_le {r : Rule} {cs : List Element} {k : Nat} :
    nestingIn r cs ≤ k ↔ ∀ c ∈ cs, c.nestingUnder r ≤ k := by
  induction cs with
  | nil => simp [nestingIn]
  | cons c cs ih => rw [nestingIn_cons_le, ih, List.forall_mem_cons]

namespace Node

theorem nesting_mk {r : Rule} {s : Span} {cs : List Element} :
    (Node.mk r s cs).nesting = nestingIn r cs := by
  rw [nesting]

theorem nesting_le {n : Node} {k : Nat} :
    n.nesting ≤ k ↔ ∀ m ∈ n.nodes, m.nesting + (n.rule.nests m.rule).toNat ≤ k := by
  cases n with
  | mk r s cs =>
      rw [nesting_mk, nestingIn_le]
      constructor
      · intro h m hm
        exact h _ (mem_nodes.mp hm)
      · intro h c hc
        cases c with
        | node m => exact h m (mem_nodes.mpr hc)
        | token t => exact Nat.zero_le k

theorem nesting_le_of_mem_nodes {n m : Node} (hm : m ∈ n.nodes) : m.nesting ≤ n.nesting :=
  (Nat.le_add_right _ _).trans (nesting_le.mp (Nat.le_refl _) m hm)

/-- Nowhere in a tree is the nesting deeper than in the whole. -/
theorem nesting_le_of_mem_family {n m : Node} (hm : m ∈ n.family) : m.nesting ≤ n.nesting := by
  rcases mem_family.mp hm with rfl | ⟨k, hk, hm⟩
  · exact Nat.le_refl _
  · exact (nesting_le_of_mem_family hm).trans (nesting_le_of_mem_nodes hk)
termination_by sizeOf n
decreasing_by exact sizeOf_lt hk

/-- Where a node nests a part, there is a level more than in the part. -/
theorem nesting_lt {n m : Node} (hm : m ∈ n.nodes) (h : n.rule.nests m.rule) :
    m.nesting < n.nesting := by
  have hle := nesting_le.mp (Nat.le_refl n.nesting) m hm
  rw [h] at hle
  exact hle

/-- A node somewhere in a tree, with `k` members of condition groups and bodies of schedules on the
way to it. -/
inductive Encloses : Node → Nat → Node → Prop where
  | self (n : Node) : Encloses n 0 n
  | part {n m p : Node} {k : Nat} (hm : m ∈ n.nodes) (h : Encloses m k p) :
      Encloses n (k + (n.rule.nests m.rule).toNat) p

theorem Encloses.le_nesting {n m : Node} {k : Nat} (h : n.Encloses k m) : k ≤ n.nesting := by
  induction h with
  | self n => exact Nat.zero_le _
  | part hm h ih =>
      have hle := nesting_le.mp (Nat.le_refl _) _ hm
      omega

/-- Somewhere the nesting is as deep as it gets. -/
theorem exists_encloses (n : Node) : ∃ m, n.Encloses n.nesting m := by
  cases hn : n.nesting with
  | zero => exact ⟨n, .self n⟩
  | succ k =>
      have hnot : ¬n.nesting ≤ k := by omega
      rw [nesting_le] at hnot
      obtain ⟨m, hm⟩ := not_forall.mp hnot
      obtain ⟨hm, hlt⟩ := Classical.not_imp.mp hm
      have hle := nesting_le.mp (Nat.le_refl _) m hm
      have hsame : k + 1 = m.nesting + (n.rule.nests m.rule).toNat := by omega
      obtain ⟨p, hp⟩ := exists_encloses m
      exact ⟨p, hsame ▸ .part hm hp⟩
termination_by sizeOf n
decreasing_by exact sizeOf_lt hm

/-- The nesting of a tree is the greatest number of levels around one of its nodes. -/
theorem nesting_isGreatest (n : Node) : IsGreatest {k | ∃ m, n.Encloses k m} n.nesting :=
  ⟨n.exists_encloses, fun _ ⟨_, h⟩ => h.le_nesting⟩

end Node

/-! ## Flat nodes -/

variable {P : Node → Prop} {T : Token → Prop}

/-- There is nothing to nest in a flat node whose nodes fill their slots. -/
theorem Node.nesting_of_isFlat (hP : ∀ m, P m → m.isFilled) (n : Node) (h : n.Every P T)
    (hr : n.rule.isFlat) : n.nesting = 0 := by
  refine Nat.le_zero.mp (nesting_le.mpr fun m hm => ?_)
  have hflat : m.rule.isFlat := rule_of_closed Rule.closed_isFlat (hP n h.here) hr hm
  have hzero := nesting_of_isFlat hP m (h.node hm) hflat
  simp [hzero, Rule.not_nests_of_isFlat hr]
termination_by sizeOf n
decreasing_by exact sizeOf_lt hm

/-! ## Sound trees -/

/-- A sound tree that follows one of some rules, in which at most `k` condition groups and schedules
lie inside one another. -/
def GrownWithin (k : Nat) (T : Token → Prop) (S : Span → Prop) (rules : List Rule) (n : Node) : Prop :=
  Grown T S rules n ∧ n.nesting ≤ k

/-- The same of a node that is to be made of some parts. -/
def PartsWithin (k : Nat) (T : Token → Prop) (S : Span → Prop) (rules : List Rule)
    (p : Rule × List Element) : Prop :=
  Parts T S rules p ∧ nestingIn p.1 p.2 ≤ k

variable {S : Span → Prop} {rules rules' : List Rule} {n : Node} {k : Nat}

theorem GrownWithin.mono (h : GrownWithin k T S rules n) (hr : rules ⊆ rules') :
    GrownWithin k T S rules' n :=
  ⟨h.1.mono hr, h.2⟩

/-- A part that lies no deeper than the node it is a part of. -/
theorem GrownWithin.under {r : Rule} (h : GrownWithin k T S rules n)
    (hr : rules.all fun part => !r.nests part) : (Element.node n).nestingUnder r ≤ k := by
  have hsame : r.nests n.rule = false := by simpa using List.all_eq_true.mp hr _ h.1.1
  simpa [Element.nestingUnder, hsame] using h.2

theorem Element.nestingUnder_of_lt {r : Rule} (h : n.nesting < k) :
    (Element.node n).nestingUnder r ≤ k := by
  have hone := Bool.toNat_le (r.nests n.rule)
  rw [Element.nestingUnder]
  omega

/-- Parts that lie no deeper than the node they are parts of, behind some tokens. -/
theorem GrownWithin.nodes {r : Rule} {ns : List Node} (h : ∀ n ∈ ns, GrownWithin k T S rules n)
    (hr : rules.all fun part => !r.nests part) : nestingIn r (ns.map .node) ≤ k := by
  refine nestingIn_le.mpr fun c hc => ?_
  obtain ⟨n, hn, rfl⟩ := List.mem_map.mp hc
  exact (h n hn).under hr

theorem Grown.nesting_of_isFlat (h : Grown T S rules n) (hr : rules.all Rule.isFlat) :
    n.nesting = 0 :=
  Node.nesting_of_isFlat (fun _ hm => hm.filled) n h.2 (List.all_eq_true.mp hr _ h.1)

/-- Flat nodes hold no more levels than there are. -/
theorem Grown.within (h : Grown T S rules n) (hr : rules.all Rule.isFlat) :
    GrownWithin k T S rules n :=
  ⟨h, (h.nesting_of_isFlat hr).trans_le (Nat.zero_le k)⟩

theorem Parts.within {p : Rule × List Element} (h : Parts T S rules p) (hr : rules.all Rule.isFlat)
    (hsub : rules ⊆ rules') : PartsWithin k T S rules' p := by
  obtain ⟨r, cs⟩ := p
  have hevery : (Node.mk r .origin cs).Every (fun m => m.isFilled) T :=
    Node.every_mk.mpr ⟨h.2.1, fun c hc => (h.2.2 c hc).mono (fun _ hm => hm.filled) fun _ ht => ht⟩
  have hzero := Node.nesting_of_isFlat (fun _ hm => hm) _ hevery (List.all_eq_true.mp hr _ h.1)
  exact ⟨h.mono hsub, hzero.trans_le (Nat.zero_le k)⟩

end Storyworld
