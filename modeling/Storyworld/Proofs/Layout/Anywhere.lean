import Storyworld.Proofs.Grammar.Findings
import Storyworld.Proofs.Layout.Parsers
import Storyworld.Proofs.Tree.Nesting

namespace Storyworld

/-! What parsers find wherever the tokens lie. Reading does not go by their places, so these may be
put in order first; what is found is then the same up to places. -/

/-! ## Rules in a tree -/

mutual

theorem Node.family_bare : ∀ n : Node, n.bare.family = n.family.map Node.bare
  | .mk r s cs => by simp [Node.bare, Node.family, familyIn_bareAll cs]

theorem familyIn_bareAll : ∀ cs : List Element,
    familyIn (Element.bareAll cs) = (familyIn cs).map Node.bare
  | [] => rfl
  | c :: cs => by simp [Element.bareAll, familyIn, Element.family_bare c, familyIn_bareAll cs]

theorem Element.family_bare : ∀ c : Element, c.bare.family = c.family.map Node.bare
  | .node n => Node.family_bare n
  | .token _ => rfl

end

/-- A tree in which there can be neither a condition group nor a schedule. -/
def Node.IsFlat (n : Node) : Prop :=
  ∀ m ∈ n.family, m.rule.isFlat

variable {T : Token → Prop} {S : Span → Prop} {rules : List Rule} {n m : Node}

theorem Node.IsFlat.of_bare (h : m.IsFlat) (hbare : m.bare = n.bare) : n.IsFlat := by
  intro k hk
  have hmem : k.bare ∈ m.family.map Node.bare := by
    rw [← family_bare, hbare, family_bare]
    exact List.mem_map_of_mem hk
  obtain ⟨k', hk', heq⟩ := List.mem_map.mp hmem
  have hrule : k'.rule = k.rule := by rw [← rule_bare, heq, rule_bare]
  exact hrule ▸ h k' hk'

theorem Grown.isFlat (h : Grown T S rules n) (hr : rules.all Rule.isFlat) : n.IsFlat := fun _ hm =>
  Node.rule_of_mem_family Rule.closed_isFlat (h.2.mono (fun _ hm => hm.filled) fun _ ht => ht)
    (List.all_eq_true.mp hr _ h.1) hm

/-- Parts that make a flat node. -/
theorem Parts.isFlat {x : Rule × List Element} (h : Parts T S rules x) (hr : rules.all Rule.isFlat) :
    (Node.mk x.1 .origin x.2).IsFlat := by
  have hevery : (Node.mk x.1 .origin x.2).Every (fun m => m.isFilled) T :=
    Node.every_mk.mpr ⟨h.2.1, fun c hc => (h.2.2 c hc).mono (fun _ hm => hm.filled) fun _ ht => ht⟩
  exact fun _ hm => Node.rule_of_mem_family Rule.closed_isFlat hevery
    (List.all_eq_true.mp hr _ h.1) hm

/-! ## Tokens in order -/

/-- The same tokens one behind the other. -/
def Token.inLine (ts : List Token) : List Token :=
  ts.mapIdx fun i t => { t with span := ⟨i, i + 1, 1, i + 1⟩ }

theorem Token.map_bare_inLine (ts : List Token) : (inLine ts).map bare = ts.map bare :=
  List.ext_getElem (by simp [inLine]) (by simp [inLine, bare])

theorem InOrder.inLine (ts : List Token) : InOrder (Token.inLine ts) := by
  constructor
  · intro t ht
    obtain ⟨i, _, rfl⟩ := List.mem_mapIdx.mp ht
    exact Nat.lt_succ_self i
  · refine List.pairwise_iff_getElem.mpr fun i j _ _ hij => ?_
    simpa [Token.inLine] using Nat.succ_le_of_lt hij

namespace Grammar

open Baring

variable {fl tk : Bool} {α : Type} {p : Parse α} {c : Context} {s s' : State}

/-- A parser that does not go by places finds what it is composed to find, up to places, whatever
tokens there are. -/
theorem Composed.found {Q : α → Prop} {e : α → α} {a : α}
    (hp : Composed (fun _ => True) (fun _ => True) fl tk p Q) (hb : Bared e p p)
    (h : p c s = .ok a s') : ∃ b, Q b ∧ e b = e a := by
  let t : State := { s with rest := Token.inLine s.rest }
  have hbare : t.bare = s.bare := by simp [t, State.bare, Token.map_bare_inLine]
  have hsame : bareResult e (p c t) = bareResult e (p c s) := by rw [← hb, ← hb, hbare]
  rw [h] at hsame
  cases hpt : p c t with
  | error fault t' =>
      rw [hpt] at hsame
      cases hsame
  | ok b t' =>
      rw [hpt] at hsame
      obtain ⟨taken, hrest⟩ := (hp.advances.ok hpt).rest
      have horder : InOrder (taken ++ t'.rest) := hrest ▸ InOrder.inLine s.rest
      have hjoins : Joins (fun _ => True) (fun _ => True) := fun _ _ _ _ _ => trivial
      refine ⟨b, hp.finds hjoins t b t' taken hpt hrest.symm (by simp) horder.left, ?_⟩
      injection hsame

theorem Composed.rule_found {p : Parse Node} {n : Node}
    (hp : Composed (fun _ => True) (fun _ => True) fl tk p (Grown (fun _ => True) (fun _ => True) rules))
    (hb : Uniform .bare Relabelling.bare.node p p) (h : p c s = .ok n s') : n.rule ∈ rules := by
  obtain ⟨m, hm, hbare⟩ := hp.found (.node_of_uniform hb) h
  have hrule : m.rule = n.rule := by rw [← Node.rule_bare, hbare, Node.rule_bare]
  exact hrule ▸ hm.1

theorem Composed.flat_found {p : Parse Node} {n : Node}
    (hp : Composed (fun _ => True) (fun _ => True) fl tk p (Grown (fun _ => True) (fun _ => True) rules))
    (hr : rules.all Rule.isFlat) (hb : Uniform .bare Relabelling.bare.node p p)
    (h : p c s = .ok n s') : n.IsFlat := by
  obtain ⟨m, hm, hbare⟩ := hp.found (.node_of_uniform hb) h
  exact (hm.isFlat hr).of_bare hbare

theorem Composed.flatParts_found {p : Parse (Rule × List Element)} {x : Rule × List Element}
    (hp : Composed (fun _ => True) (fun _ => True) fl tk p (Parts (fun _ => True) (fun _ => True) rules))
    (hr : rules.all Rule.isFlat) (hb : Uniform .bare Relabelling.bare.parts p p) (h : p c s = .ok x s') :
    (Node.mk x.1 .origin x.2).IsFlat := by
  obtain ⟨y, hy, hbare⟩ := hp.found (.parts_of_uniform hb) h
  exact (hy.isFlat hr).of_bare (congrArg (fun z : Rule × List Element => Node.mk z.1 .origin z.2) hbare)

end Grammar

end Storyworld
