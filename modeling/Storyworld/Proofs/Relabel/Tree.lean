import Storyworld.Proofs.Layout.Bare
import Storyworld.Proofs.Tree.Every

namespace Storyworld

/-! Tokens and trees that say the same but for their numerals. What is written where a number stands
may change, and with it where everything lies; kinds stay, and so do the texts of all other
tokens. -/

/-- What is put in place of a number, and where things lie afterwards. -/
structure Relabelling where
  numeral : Token → String
  place : Span → Span

namespace Relabelling

variable (w : Relabelling)

/-- A token that is put elsewhere and left as it is. -/
def moved (t : Token) : Token :=
  { t with span := w.place t.span }

def token (t : Token) : Token :=
  { t with text := if t.kind = .number then w.numeral t else t.text, span := w.place t.span }

mutual

def node : Node → Node
  | .mk r s cs => .mk r (w.place s) (elements cs)

def elements : List Element → List Element
  | [] => []
  | c :: cs => element c :: elements cs

def element : Element → Element
  | .node n => .node (node n)
  | .token t => .token (w.token t)

end

/-- The rule and the parts of a node. -/
def parts : Rule × List Element → Rule × List Element :=
  Prod.map id w.elements

/-- Only a number is written in another way. -/
theorem token_eq_moved {t : Token} (h : t.kind ≠ .number) : w.token t = w.moved t := by
  simp [token, moved, h]

/-- Numerals are exchanged, and everything stays in its place. -/
def Stays : Prop :=
  ∀ s, w.place s = s

/-! ## Nodes and their parts -/

section

variable (n : Node) (cs : List Element)

@[simp] theorem rule_node : (w.node n).rule = n.rule := by
  cases n
  rfl

@[simp] theorem span_node : (w.node n).span = w.place n.span := by
  cases n
  rfl

@[simp] theorem children_node : (w.node n).children = w.elements n.children := by
  cases n
  rfl

theorem elements_eq_map : w.elements cs = cs.map w.element := by
  induction cs with
  | nil => rfl
  | cons c cs ih => rw [elements, ih, List.map_cons]

theorem elements_append (ds : List Element) :
    w.elements (cs ++ ds) = w.elements cs ++ w.elements ds := by
  simp only [elements_eq_map, List.map_append]

@[simp] theorem elements_map_node (ns : List Node) :
    w.elements (ns.map .node) = (ns.map w.node).map .node := by
  rw [elements_eq_map, List.map_map, List.map_map]
  rfl

@[simp] theorem elements_map_token (ts : List Token) :
    w.elements (ts.map .token) = (ts.map w.token).map .token := by
  rw [elements_eq_map, List.map_map, List.map_map]
  rfl

@[simp] theorem nodes_elements :
    Element.nodes (w.elements cs) = (Element.nodes cs).map w.node := by
  induction cs with
  | nil => rfl
  | cons c cs ih =>
      cases c with
      | node n => exact congrArg (w.node n :: ·) ih
      | token t => exact ih

@[simp] theorem tokens_elements :
    Element.tokens (w.elements cs) = (Element.tokens cs).map w.token := by
  induction cs with
  | nil => rfl
  | cons c cs ih =>
      cases c with
      | node n => exact ih
      | token t => exact congrArg (w.token t :: ·) ih

@[simp] theorem nodes_node : (w.node n).nodes = n.nodes.map w.node := by
  rw [Node.nodes, children_node, nodes_elements, Node.nodes]

@[simp] theorem tokens_node : (w.node n).tokens = n.tokens.map w.token := by
  rw [Node.tokens, children_node, tokens_elements, Node.tokens]

end

mutual

/-- A tree none of whose tokens is exchanged stays as it is. -/
theorem node_of_leaves (hw : w.Stays) :
    ∀ n : Node, (∀ t ∈ n.leaves, w.token t = t) → w.node n = n
  | .mk r s cs, h => by
    rw [node, hw, elements_of_leaves hw cs (by simpa [Node.leaves] using h)]

theorem elements_of_leaves (hw : w.Stays) :
    ∀ cs : List Element, (∀ t ∈ leavesIn cs, w.token t = t) → w.elements cs = cs
  | [], _ => rfl
  | c :: cs, h => by
    rw [leavesIn, List.forall_mem_append] at h
    rw [elements, element_of_leaves hw c h.1, elements_of_leaves hw cs h.2]

theorem element_of_leaves (hw : w.Stays) :
    ∀ c : Element, (∀ t ∈ c.leaves, w.token t = t) → w.element c = c
  | .node n, h => by rw [element, node_of_leaves hw n (by simpa [Element.leaves] using h)]
  | .token t, h => by rw [element, h t (by simp [Element.leaves])]

end

/-! ## Leaving places out -/

/-- Everything stays as it is written, and all places are put at the origin. -/
def bare : Relabelling :=
  ⟨Token.text, fun _ => .origin⟩

@[simp] theorem bare_moved : bare.moved = Token.bare :=
  rfl

@[simp] theorem bare_token : bare.token = Token.bare := by
  funext t
  simp [token, bare, Token.bare]

mutual

theorem bare_node : ∀ n : Node, bare.node n = n.bare
  | .mk r s cs => by
    rw [node, Node.bare, bare_elements cs]
    rfl

theorem bare_elements : ∀ cs : List Element, bare.elements cs = Element.bareAll cs
  | [] => rfl
  | c :: cs => by rw [elements, Element.bareAll, bare_element c, bare_elements cs]

theorem bare_element : ∀ c : Element, bare.element c = c.bare
  | .node n => by rw [element, Element.bare, bare_node n]
  | .token t => by rw [element, Element.bare, bare_token]

end

end Relabelling

end Storyworld
