import Storyworld.Proofs.Tree.Signature

namespace Storyworld

/-! Trees in which every node has the parts its rule asks for, and covers them. -/

/-- A region inside another one. -/
structure Span.Inside (s outer : Span) : Prop where
  start : outer.start ≤ s.start
  le : s.start ≤ s.stop
  stop : s.stop ≤ outer.stop

instance (s outer : Span) : Decidable (s.Inside outer) :=
  decidable_of_iff (outer.start ≤ s.start ∧ s.start ≤ s.stop ∧ s.stop ≤ outer.stop)
    ⟨fun h => ⟨h.1, h.2.1, h.2.2⟩, fun h => ⟨h.start, h.le, h.stop⟩⟩

theorem Span.Inside.trans {s s' outer : Span} (h : s.Inside s') (h' : s'.Inside outer) :
    s.Inside outer :=
  ⟨h'.start.trans h.start, h.le, h.stop.trans h'.stop⟩

/-- The parts of a node lie inside it. -/
def Node.Covers (n : Node) : Prop :=
  ∀ c ∈ n.children, c.span.Inside n.span

/-- A node that fills the slots of its rule, has a span that satisfies `S`, and covers its parts. -/
structure Node.Apt (S : Span → Prop) (n : Node) : Prop where
  filled : n.isFilled
  span : S n.span
  covers : n.Covers

/-- A tree of apt nodes in which every token satisfies `T`. -/
def Node.Sound (T : Token → Prop) (S : Span → Prop) (n : Node) : Prop :=
  n.Every (Node.Apt S) T

/-- A sound tree that follows one of some rules. -/
def Grown (T : Token → Prop) (S : Span → Prop) (rules : List Rule) (n : Node) : Prop :=
  n.rule ∈ rules ∧ n.Sound T S

/-- Parts that fill a row of slots with tokens that satisfy `T` and sound trees. -/
def Fills (T : Token → Prop) (S : Span → Prop) (slots : List Slot) (cs : List Element) : Prop :=
  fill slots cs ∧ ∀ c ∈ cs, c.Every (Node.Apt S) T

/-- A rule out of some, and parts that fill its slots. -/
def Parts (T : Token → Prop) (S : Span → Prop) (rules : List Rule) (p : Rule × List Element) :
    Prop :=
  p.1 ∈ rules ∧ Fills T S p.1.slots p.2

variable {T : Token → Prop} {S : Span → Prop} {slots : List Slot} {cs : List Element}
  {c : Element} {p : Part} {t : Token} {n : Node} {rules : List Rule}

/-- Everything in a sound tree lies inside it. -/
theorem Node.Sound.inside {n : Node} (h : n.Sound T S) (hS : ∀ s, S s → s.start ≤ s.stop) :
    n.Every (fun m => m.span.Inside n.span) fun t => t.span.Inside n.span := by
  have hs : n.span.start ≤ n.span.stop := hS _ (Every.here h).span
  refine every_iff.mpr ⟨⟨Nat.le_refl _, hs, Nat.le_refl _⟩, fun c hc => ?_⟩
  have hcovered : c.span.Inside n.span := (Every.here h).covers c hc
  cases c with
  | token t => exact Element.every_token.mpr hcovered
  | node k =>
      have hk : k.Sound T S := Every.node h (mem_nodes.mpr hc)
      rw [Element.every_node]
      exact (inside hk hS).mono (fun m hm => hm.trans hcovered) fun t ht => ht.trans hcovered
termination_by sizeOf n
decreasing_by exact sizeOf_lt (mem_nodes.mpr hc)

theorem Grown.mono {rules' : List Rule} (h : Grown T S rules n) (hr : rules ⊆ rules') :
    Grown T S rules' n :=
  ⟨hr h.1, h.2⟩

theorem Grown.fits (h : Grown T S rules n) : (Part.node rules).fits (.node n) := by
  simpa [Part.fits] using h.1

theorem Grown.misfits {others : List Rule} (h : Grown T S others n) (hd : ∀ r ∈ others, r ∉ rules) :
    (Part.node rules).fits (.node n) = false := by
  simpa [Part.fits] using hd n.rule h.1

theorem Grown.of_fills {r : Rule} {span : Span} (hr : r ∈ rules) (hs : S span)
    (h : Fills T S r.slots cs) (hc : ∀ c ∈ cs, c.span.Inside span) :
    Grown T S rules (.mk r span cs) :=
  ⟨hr, Node.every_mk.mpr ⟨⟨h.1, hs, hc⟩, h.2⟩⟩

namespace Fills

/-- Parts that were found inside a region. -/
theorem inside {outer : Span}
    (h : Fills (fun t => T t ∧ t.span.Inside outer) (fun s => S s ∧ s.Inside outer) slots cs) :
    Fills T S slots cs ∧ ∀ c ∈ cs, c.span.Inside outer := by
  refine ⟨⟨h.1, fun c hc => ?_⟩, fun c hc => ?_⟩
  · exact (h.2 c hc).mono (fun m hm => ⟨hm.filled, hm.span.1, hm.covers⟩) fun t ht => ht.1
  · have hevery := h.2 c hc
    cases c with
    | node n => exact (Element.every_node.mp hevery).here.span.2
    | token t => exact (Element.every_token.mp hevery).2

theorem nil : Fills T S [] [] := by
  simp [Fills]

theorem one (hp : p.fits c) (hc : c.Every (Node.Apt S) T)
    (h : Fills T S slots cs) : Fills T S (.one p :: slots) (c :: cs) := by
  refine ⟨by simp [hp, h.1], ?_⟩
  intro d hd
  rcases List.mem_cons.mp hd with rfl | hd
  · exact hc
  · exact h.2 d hd

theorem optional (hp : p.fits c) (hc : c.Every (Node.Apt S) T)
    (h : Fills T S slots cs) : Fills T S (.optional p :: slots) (c :: cs) := by
  refine ⟨by rw [fill_optional_of_fits hp]; exact h.1, ?_⟩
  intro d hd
  rcases List.mem_cons.mp hd with rfl | hd
  · exact hc
  · exact h.2 d hd

/-- An optional slot that nothing follows may stay empty. -/
theorem absent (h : Fills T S slots []) : Fills T S (.optional p :: slots) [] := h

/-- An optional slot stays empty where something else follows. -/
theorem skip (hp : p.fits c = false) (h : Fills T S slots (c :: cs)) :
    Fills T S (.optional p :: slots) (c :: cs) :=
  ⟨by rw [fill_optional_of_not_fits hp]; exact h.1, h.2⟩

/-- A token of the right kind, taken from those that satisfy `T`. -/
theorem token (ht : T t ∧ p.admits t) (h : Fills T S slots cs) :
    Fills T S (.one p :: slots) (.token t :: cs) := by
  refine one ?_ (Element.every_token.mpr ht.1) h
  cases p <;> simp_all [Part.fits, Part.admits]

theorem optionalToken (ht : T t ∧ p.admits t) (h : Fills T S slots cs) :
    Fills T S (.optional p :: slots) (.token t :: cs) := by
  refine optional ?_ (Element.every_token.mpr ht.1) h
  cases p <;> simp_all [Part.fits, Part.admits]

theorem node (hn : Grown T S rules n) (h : Fills T S slots cs) :
    Fills T S (.one (.node rules) :: slots) (.node n :: cs) :=
  one hn.fits (Element.every_node.mpr hn.2) h

theorem optionalNode (hn : Grown T S rules n) (h : Fills T S slots cs) :
    Fills T S (.optional (.node rules) :: slots) (.node n :: cs) :=
  optional hn.fits (Element.every_node.mpr hn.2) h

theorem many_append {ds : List Element}
    (hcs : ∀ c ∈ cs, p.fits c ∧ c.Every (Node.Apt S) T)
    (h : Fills T S (.many p :: slots) ds) : Fills T S (.many p :: slots) (cs ++ ds) := by
  refine ⟨by rw [fill_many_append fun c hc => (hcs c hc).1]; exact h.1, ?_⟩
  intro d hd
  rcases List.mem_append.mp hd with hd | hd
  · exact (hcs d hd).2
  · exact h.2 d hd

/-- A repeated slot may stay empty where something else follows. -/
theorem many_none (hc : p.fits c = false) (h : Fills T S slots (c :: cs)) :
    Fills T S (.many p :: slots) (c :: cs) :=
  ⟨by rw [fill_many, List.dropWhile_cons_of_neg (by simp [hc])]; exact h.1, h.2⟩

theorem many_nil (h : Fills T S slots []) : Fills T S (.many p :: slots) [] := h

/-- A repeated slot stays empty where only nodes of other rules follow. -/
theorem many_others {ns : List Node} {others : List Rule} (hns : ∀ n ∈ ns, Grown T S others n)
    (hd : ∀ r ∈ others, r ∉ rules) (h : Fills T S slots (ns.map .node)) :
    Fills T S (.many (.node rules) :: slots) (ns.map .node) := by
  cases ns with
  | nil => exact many_nil h
  | cons n ns =>
      exact many_none ((hns n (by simp)).misfits hd) h

theorem nodes_append {ns : List Node} (hns : ∀ n ∈ ns, Grown T S rules n)
    (h : Fills T S (.many (.node rules) :: slots) cs) :
    Fills T S (.many (.node rules) :: slots) (ns.map .node ++ cs) := by
  refine many_append ?_ h
  intro c hc
  obtain ⟨n, hn, rfl⟩ := List.mem_map.mp hc
  exact ⟨(hns n hn).fits, Element.every_node.mpr (hns n hn).2⟩

/-- Nodes to the end of a row. -/
theorem nodes {ns : List Node} (hns : ∀ n ∈ ns, Grown T S rules n) :
    Fills T S [.many (.node rules)] (ns.map .node) := by
  simpa using nodes_append hns (many_nil nil)

/-- Tokens to the end of a row. -/
theorem tokens {ts : List Token} (hts : ∀ t ∈ ts, T t ∧ p.admits t) :
    Fills T S [.many p] (ts.map .token) := by
  have hfits : ∀ c ∈ ts.map Element.token,
      p.fits c ∧ c.Every (Node.Apt S) T := by
    intro c hc
    obtain ⟨t, ht, rfl⟩ := List.mem_map.mp hc
    obtain ⟨hT, hp⟩ := hts t ht
    refine ⟨?_, Element.every_token.mpr hT⟩
    cases p <;> simp_all [Part.fits, Part.admits]
  simpa using many_append hfits (many_nil nil)

end Fills

namespace Parts

variable {r r' : Rule}

theorem of_fills (hr : r ∈ rules) (h : Fills T S r.slots cs) : Parts T S rules (r, cs) :=
  ⟨hr, h⟩

theorem ite {b : Prop} [Decidable b] (h : Parts T S rules (r, cs)) (h' : Parts T S rules (r', cs)) :
    Parts T S rules (if b then r else r', cs) := by
  split
  · exact h
  · exact h'

/-- Parts that are one word. -/
theorem word (hr : r ∈ rules) (hs : r.slots = [.one .word]) (ht : T t ∧ t.isWord) :
    Parts T S rules (r, [.token t]) := by
  refine ⟨hr, ?_⟩
  rw [hs]
  exact .token ht .nil

theorem mono {rules' : List Rule} {p : Rule × List Element} (h : Parts T S rules p)
    (hr : rules ⊆ rules') : Parts T S rules' p :=
  ⟨hr h.1, h.2⟩

end Parts

end Storyworld
