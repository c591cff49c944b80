import Storyworld.Proofs.Nesting.Building
import Storyworld.Proofs.Relabel.Tree
import Storyworld.Proofs.Shape.Numbers

namespace Storyworld

/-! Building with another number. Where a number of a tree that is built without a fault is exchanged,
the tree is still built without a fault, or nothing is at fault but that the new number is out of
range. -/

variable {w : Relabelling} {n : Node} {m : Measure} {t : Token}

/-! ## Exchanged numbers -/

/-- A number as it is written after an exchange. -/
def Numeral.relabelled (w : Relabelling) (b : Numeral) : Numeral :=
  { b with token := w.token b.token }

namespace Relabelling

theorem ownNumerals_node (n : Node) :
    (w.node n).ownNumerals = n.ownNumerals.map (Numeral.relabelled w) := by
  rw [Node.ownNumerals, Node.ownNumerals, rule_node, tokens_node, List.getLast?_map]
  cases n.rule.measure? with
  | none => rfl
  | some m => cases n.tokens.getLast? <;> rfl

theorem numerals_node (n : Node) :
    (w.node n).numerals = n.numerals.map (Numeral.relabelled w) := by
  have hbelow : n.nodes.flatMap (fun m => (w.node m).numerals) =
      n.nodes.flatMap fun m => m.numerals.map (Numeral.relabelled w) :=
    List.flatMap_congr fun m hm => numerals_node m
  rw [Node.numerals_eq, Node.numerals_eq, ownNumerals_node, nodes_node, List.flatMap_map, hbelow,
    List.map_append, List.map_flatMap]
termination_by sizeOf n
decreasing_by exact Node.sizeOf_lt hm

/-- In a node whose parts fill its slots no token but its number is exchanged, and this for another
number; and there is an exchange in one of its parts at most. -/
structure Exchanges (w : Relabelling) (n : Node) : Prop where
  filled : n.isFilled
  relabelled : (w.node n).isFilled
  tokens : ∀ t ∈ n.tokens, w.token t = t ∨
    (Text.Integer.word? (w.token t).text.toList).isSome ∧ ∃ m, ⟨m, t⟩ ∈ n.ownNumerals
  apart : n.children.Pairwise fun c d => w.element c = c ∨ w.element d = d

/-- A tree in which numbers are exchanged, one in each node at most. -/
def ExchangesIn (w : Relabelling) (n : Node) : Prop :=
  n.Every w.Exchanges fun _ => True

/-- The faults that a number in a tree was exchanged for one out of range. -/
def Misfits (w : Relabelling) (n : Node) (fault : ShapeFault) : Prop :=
  ∃ b ∈ n.numerals, ∃ v, Text.Integer.read? (w.token b.token).text.toList = some v ∧
    ¬b.measure.Allows v ∧ fault = .outOfRange b.measure.what v (w.token b.token).span

theorem Misfits.below {k : Node} {fault : ShapeFault} (h : w.Misfits k fault) (hk : k ∈ n.nodes) :
    w.Misfits n fault := by
  obtain ⟨b, hb, hfault⟩ := h
  exact ⟨b, Node.mem_numerals.mpr (.inr ⟨k, hk, hb⟩), hfault⟩

/-- Of two parts one is as it was before. -/
theorem Exchanges.apart_nodes {k l : Node} (hn : w.Exchanges n) (hk : k ∈ n.nodes) (hl : l ∈ n.nodes)
    (hne : k ≠ l) : w.node k = k ∨ w.node l = l := by
  have _ : Std.Symm fun c d : Element => w.element c = c ∨ w.element d = d := ⟨fun _ _ => Or.symm⟩
  have hapart := hn.apart.forall (Node.mem_nodes.mp hk) (Node.mem_nodes.mp hl) (by simpa using hne)
  exact hapart.imp Element.node.inj Element.node.inj

theorem Exchanges.pairwise_nodes (hn : w.Exchanges n) :
    n.nodes.Pairwise fun k l => w.node k = k ∨ w.node l = l := by
  refine hn.apart.filterMap _ fun c d hcd k hk l hl => ?_
  obtain ⟨rfl, rfl⟩ : c = .node k ∧ d = .node l := by
    cases c <;> cases d <;> simp_all [Element.node?]
  exact hcd.imp Element.node.inj Element.node.inj

namespace ExchangesIn

variable (hw : w.Stays)

theorem here (h : w.ExchangesIn n) : w.Exchanges n :=
  Node.Every.here h

theorem node {k : Node} (h : w.ExchangesIn n) (hk : k ∈ n.nodes) : w.ExchangesIn k :=
  Node.Every.node h hk

theorem filled (h : w.ExchangesIn n) : n.Every (fun k => k.isFilled) fun _ => True :=
  Node.Every.mono h (fun _ hk => hk.filled) fun _ ht => ht

theorem relabelled {n : Node} (h : w.ExchangesIn n) :
    (w.node n).Every (fun k => k.isFilled) fun _ => True := by
  refine Node.every_iff.mpr ⟨h.here.relabelled, fun c hc => ?_⟩
  rw [children_node, elements_eq_map] at hc
  obtain ⟨d, hd, rfl⟩ := List.mem_map.mp hc
  cases d with
  | token t => exact Element.every_token.mpr trivial
  | node k => exact Element.every_node.mpr (relabelled (h.node (Node.mem_nodes.mpr hd)))
termination_by sizeOf n
decreasing_by exact Node.sizeOf_lt (Node.mem_nodes.mpr hd)

include hw

/-- A tree of which no number is exchanged stays as it is. -/
theorem node_eq {n : Node} (h : w.ExchangesIn n)
    (hsame : ∀ b ∈ n.numerals, w.token b.token = b.token) : w.node n = n := by
  have hchildren : n.children.map w.element = n.children := by
    refine (List.map_congr_left fun c hc => ?_).trans (List.map_id _)
    cases c with
    | token t =>
        refine congrArg Element.token ((h.here.tokens t (Token.mem_tokens.mpr hc)).elim id ?_)
        rintro ⟨-, m, hown⟩
        exact hsame _ (Node.mem_numerals.mpr (.inl hown))
    | node k =>
        have hk := Node.mem_nodes.mpr hc
        have hbelow := node_eq (h.node hk) fun b hb => hsame b (Node.mem_numerals.mpr (.inr ⟨k, hk, hb⟩))
        exact congrArg Element.node hbelow
  obtain ⟨r, s, cs⟩ := n
  rw [Relabelling.node, hw, elements_eq_map]
  exact congrArg (Node.mk r s) hchildren
termination_by sizeOf n
decreasing_by exact Node.sizeOf_lt hk

theorem node_eq_of_quiet (h : w.ExchangesIn n) (hr : !n.rule.leadsToNumbers) : w.node n = n := by
  refine h.node_eq hw fun b hb => ?_
  rw [Node.numerals_of_quiet h.filled hr] at hb
  cases hb

end ExchangesIn

end Relabelling

namespace Shape

variable {α β γ δ : Type} {P Q : ShapeFault → Prop} {R : α → β → Prop} {S : γ → δ → Prop}

/-! ## Reading parts -/

/-- Where `x` succeeds, `y` does too or fails as expected. -/
def Survives (P : ShapeFault → Prop) (R : α → β → Prop) (x : Except ShapeFault α)
    (y : Except ShapeFault β) : Prop :=
  ∀ a, x = .ok a → (∃ b, y = .ok b ∧ R a b) ∨ ∃ fault, y = .error fault ∧ P fault

namespace Survives

variable {x : Except ShapeFault α} {y : Except ShapeFault β} {f : α → Except ShapeFault γ}
  {g : β → Except ShapeFault δ}

theorem done {a : α} {b : β} (h : R a b) : Survives P R (.ok a) (.ok b) := by
  rintro _ ⟨⟩
  exact .inl ⟨b, rfl, h⟩

theorem fails {fault : ShapeFault} : Survives P R (.error fault) y :=
  nofun

theorem bind (hx : Survives P R x y) (hf : ∀ a b, R a b → Survives P S (f a) (g b)) :
    Survives P S (x >>= f) (y >>= g) := by
  intro c hc
  obtain ⟨a, ha, hc⟩ := bind_eq_ok.mp hc
  rcases hx a ha with ⟨b, rfl, hR⟩ | ⟨fault, rfl, hP⟩
  · exact hf a b hR c hc
  · exact .inr ⟨fault, rfl, hP⟩

theorem mono (hx : Survives P R x y) (hP : ∀ fault, P fault → Q fault) : Survives Q R x y := by
  intro a ha
  rcases hx a ha with hok | ⟨fault, hy, hfault⟩
  · exact .inl hok
  · exact .inr ⟨fault, hy, hP fault hfault⟩

theorem same : Survives P (fun _ _ => True) x x :=
  fun a ha => .inl ⟨a, ha, trivial⟩

/-- What is built of the constructs of a list. -/
theorem mapM {f : Node → Except ShapeFault α} {g : Node → Except ShapeFault β} {ns : List Node}
    (h : ∀ k ∈ ns, Survives P R (f k) (g (w.node k))) :
    Survives P (List.Forall₂ R) (ns.mapM f) ((ns.map w.node).mapM g) := by
  induction ns with
  | nil => exact done .nil
  | cons k ns ih =>
      obtain ⟨hk, hns⟩ := List.forall_mem_cons.mp h
      rw [List.map_cons, List.mapM_cons, List.mapM_cons]
      exact hk.bind fun a b hab => (ih hns).bind fun as bs hall => done (.cons hab hall)

end Survives

theorem leading_elements (rules : List Rule) (cs : List Element) :
    leading rules (w.elements cs) = (leading rules cs).map w.node := by
  match cs with
  | [] | .token _ :: _ => rfl
  | .node k :: cs =>
      change Option.filter (rules.contains ·.rule) (some (w.node k)) =
        (Option.filter (rules.contains ·.rule) (some k)).map w.node
      rw [Option.filter_some, Option.filter_some, Relabelling.rule_node]
      split <;> rfl

/-- What is read of the parts of `n` is read after an exchange, too, or a new number is out of
range. -/
def Outlives (w : Relabelling) (n : Node) (R : α → β → Prop) (r : Reading α) (r' : Reading β) :
    Prop :=
  ∀ cs, cs ⊆ n.children → Survives (w.Misfits n)
    (fun p q => p.2 ⊆ n.children ∧ q.2 = w.elements p.2 ∧ R p.1 q.1) (r n.span cs)
    (r' n.span (w.elements cs))

/-- A number as it is read, and as it is after an exchange. -/
def Exchanged (w : Relabelling) (n : Node) (p q : Int64 × Span) : Prop :=
  q = p ∨ ∃ m t, ⟨m, t⟩ ∈ n.ownNumerals ∧ Text.Integer.word? (w.token t).text.toList = some q.1 ∧
    q.2 = (w.token t).span

namespace Outlives

variable {r : Reading α} {r' : Reading β} {f : α → Reading γ} {g : β → Reading δ} {what : String}

theorem done {a : α} {b : β} (h : R a b) : Outlives w n R (pure a) (pure b) :=
  fun _ hcs => .done ⟨hcs, rfl, h⟩

theorem bind (hr : Outlives w n R r r') (hf : ∀ a b, R a b → Outlives w n S (f a) (g b)) :
    Outlives w n S (r >>= f) (r' >>= g) := by
  intro cs hcs
  refine Survives.bind (hr cs hcs) fun p q h => ?_
  obtain ⟨hsub, hq, hR⟩ := h
  have hrun := hf p.1 q.1 hR p.2 hsub
  rwa [← hq] at hrun

theorem lift {x : Except ShapeFault α} {y : Except ShapeFault β}
    (h : Survives (w.Misfits n) R x y) : Outlives w n R (liftM x) (liftM y) := by
  intro cs hcs p hp
  obtain ⟨hx, rfl⟩ := reads_lift.mp hp
  rcases h p.1 hx with ⟨b, rfl, hR⟩ | ⟨fault, rfl, hfault⟩
  · exact .inl ⟨(b, w.elements p.2), rfl, hcs, rfl, hR⟩
  · exact .inr ⟨fault, rfl, hfault⟩

theorem head (h : Outlives w n R r r') (hw : w.Stays) :
    Survives (w.Misfits n) (fun p q => p.2 ⊆ n.children ∧ q.2 = w.elements p.2 ∧ R p.1 q.1) (n.head r)
      ((w.node n).head r') := by
  unfold Node.head
  rw [Relabelling.span_node, hw, Relabelling.children_node]
  exact h n.children (List.Subset.refl _)

theorem parts (h : Outlives w n R r r') (hw : w.Stays) :
    Survives (w.Misfits n) R (n.parts r) ((w.node n).parts r') := by
  intro a ha
  obtain ⟨rest, ha⟩ := parts_eq_ok.mp ha
  rcases h.head hw _ (head_eq_ok.mpr ha) with ⟨q, hq, -, -, hR⟩ | ⟨fault, hfault, hP⟩
  · exact .inl ⟨q.1, parts_eq_ok.mpr ⟨q.2, head_eq_ok.mp hq⟩, hR⟩
  · refine .inr ⟨fault, ?_, hP⟩
    rw [Node.parts, show r' _ _ = .error fault from hfault]
    rfl

/-! ### Parts -/

theorem token : Outlives w n (fun t u => t ∈ n.tokens ∧ u = w.token t) (token what) (token what) := by
  intro cs hcs p hp
  obtain rfl := reads_token.mp hp
  refine .inl ⟨_, reads_token.mpr rfl, fun c hc => hcs (List.mem_cons_of_mem _ hc), rfl, ?_, rfl⟩
  exact Token.mem_tokens.mpr (hcs List.mem_cons_self)

theorem child : Outlives w n (fun k l => k ∈ n.nodes ∧ l = w.node k) (child what) (child what) := by
  intro cs hcs p hp
  obtain rfl := reads_child.mp hp
  refine .inl ⟨_, reads_child.mpr rfl, fun c hc => hcs (List.mem_cons_of_mem _ hc), rfl, ?_, rfl⟩
  exact Node.mem_nodes.mpr (hcs List.mem_cons_self)

theorem childOf? (rules : List Rule) :
    Outlives w n (fun k? l? => (∀ k ∈ k?, k ∈ n.nodes ∧ k.rule ∈ rules) ∧ l? = k?.map w.node)
      (childOf? rules) (childOf? rules) := by
  intro cs hcs p hp
  obtain ⟨hlead, hrest⟩ := reads_childOf?.mp hp
  refine .inl ⟨(p.1.map w.node, w.elements p.2), reads_childOf?.mpr ⟨?_, ?_⟩, ?_, rfl, ?_, rfl⟩
  · rw [leading_elements, hlead]
  · rw [← hrest, Relabelling.elements_eq_map, Relabelling.elements_eq_map, List.map_drop]
    cases p.1 <;> rfl
  · exact hrest ▸ fun c hc => hcs (List.mem_of_mem_drop hc)
  · intro k hk
    have hk : leading rules cs = some k := hlead.trans hk
    refine ⟨Node.mem_nodes.mpr (hcs ?_), rule_of_leading hk⟩
    rw [eq_leading_append rules cs, hk]
    exact List.mem_cons_self

/-! ### Values -/

theorem word : Outlives w n (fun _ _ => True) (word what) (word what) :=
  token.bind fun _ _ _ => done trivial

theorem name {of : Referent} :
    Outlives w n (fun _ _ => True) (id what : Reading (Id of)) (id what : Reading (Id of)) :=
  word.bind fun _ _ _ => done trivial

theorem string : Outlives w n (fun _ _ => True) (string what) (string what) := by
  refine token.bind fun t u h => lift ?_
  obtain ⟨-, rfl⟩ := h
  have hvalue : (w.token t).stringValue? = t.stringValue? := rfl
  rw [stringOf, stringOf, hvalue]
  split
  · exact .same
  · exact .fails

/-- A part that may be left out. -/
theorem option {rules : List Rule} {build : Node → Except ShapeFault α}
    (h : ∀ k ∈ n.nodes, k.rule ∈ rules →
      Survives (w.Misfits k) (fun _ _ => True) (build k) (build (w.node k))) :
    Outlives w n (fun _ _ => True)
      (do match ← Shape.childOf? rules with
          | some k => return some (← build k)
          | none => return none : Reading (Option α))
      (do match ← Shape.childOf? rules with
          | some k => return some (← build k)
          | none => return none : Reading (Option α)) := by
  refine (childOf? rules).bind fun k? l? hk => ?_
  obtain ⟨hk, rfl⟩ := hk
  cases k? with
  | none => exact done trivial
  | some k =>
      obtain ⟨hmem, hr⟩ := hk k rfl
      exact (lift ((h k hmem hr).mono fun _ h => h.below hmem)).bind fun _ _ _ => done trivial

theorem stringIn? (hw : w.Stays) (rule : Rule) :
    Outlives w n (fun _ _ => True) (stringIn? rule what) (stringIn? rule what) :=
  option fun _ _ _ => string.parts hw

/-! ### Numbers -/

theorem number (hn : w.Exchanges n) : Outlives w n (Exchanged w n) (number what) (number what) := by
  refine token.bind fun t u h => ?_
  obtain ⟨ht, rfl⟩ := h
  rcases hn.tokens t ht with hsame | ⟨hword, m, hown⟩
  · rw [hsame]
    split
    · exact done (.inl rfl)
    · exact fun _ _ => .fails
  · obtain ⟨value, hvalue⟩ := Option.isSome_iff_exists.mp hword
    rw [hvalue]
    split
    · exact done (.inr ⟨m, t, hown, hvalue, rfl⟩)
    · exact fun _ _ => .fails

end Outlives

/-- A check refuses a number for nothing but its range. -/
def Checks (m : Measure) (check : Int64 → Span → Except ShapeFault α) : Prop :=
  ∀ value span fault, check value span = .error fault →
    ¬m.Allows value.toInt ∧ fault = .outOfRange m.what value.toInt span

theorem Checks.exchanged {check : Int64 → Span → Except ShapeFault α} (h : Checks m check)
    (hm : n.rule.measure? = some m) {p q : Int64 × Span} (hpq : Exchanged w n p q) :
    Survives (w.Misfits n) (fun _ _ => True) (check p.1 p.2) (check q.1 q.2) := by
  intro a ha
  rcases hpq with rfl | ⟨m', t, hown, hvalue, hspan⟩
  · exact .inl ⟨a, ha, trivial⟩
  · obtain rfl : m = m' := Option.some.inj (hm.symm.trans (Node.measure_of_mem hown))
    cases hq : check q.1 q.2 with
    | ok b => exact .inl ⟨b, rfl, trivial⟩
    | error fault =>
        obtain ⟨hnot, rfl⟩ := h _ _ _ hq
        refine .inr ⟨_, rfl, _, Node.mem_numerals.mpr (.inl hown), _, ?_, hnot, ?_⟩
        · exact Text.Integer.word?_eq_some.mp hvalue
        · rw [hspan]

theorem chance_checks : Checks .chance chance := by
  intro value span fault h
  unfold chance at h
  split at h <;> cases h
  exact ⟨‹_›, rfl⟩

theorem countOf_eq_error {what : String} {value : Int64} {span : Span} {fault : ShapeFault}
    (h : countOf what value span = .error fault) :
    ¬(0 ≤ value.toInt ∧ value.toInt ≤ 2 ^ 32 - 1) ∧ fault = .outOfRange what value.toInt span := by
  unfold countOf unsigned? at h
  have hsize : (UInt32.size : Int) = 2 ^ 32 := by decide
  split at h <;> cases h
  rename_i hnone
  refine ⟨fun hrange => ?_, rfl⟩
  rw [if_pos (by omega)] at hnone
  cases hnone

theorem countOf_checks (hleast : m.least = 0) (hgreatest : m.greatest = 2 ^ 32 - 1) :
    Checks m (countOf m.what) := by
  intro value span fault h
  unfold Measure.Allows
  rw [hleast, hgreatest]
  exact countOf_eq_error h

/-- A number from one on that fits 32 bits. -/
def positiveOf (what : String) (value : Int64) (span : Span) : Except ShapeFault UInt32 := do
  let n ← countOf what value span
  if n = 0 then throw (.outOfRange what value.toInt span)
  return n

theorem positive_eq (what : String) : positive what = (do
    let p ← number what
    positiveOf what p.1 p.2) := by
  unfold positive positiveOf
  refine bind_congr fun p => ?_
  obtain ⟨value, span⟩ := p
  dsimp only
  cases countOf what value span with
  | error fault => rfl
  | ok u =>
      change (if u = 0 then (throw (.outOfRange what value.toInt span) : Reading PUnit) >>= fun _ => pure u
        else pure u) = liftM (if u = 0 then
          (throw (.outOfRange what value.toInt span) : Except ShapeFault PUnit) >>= fun _ => pure u
        else pure u)
      split <;> rfl

theorem positiveOf_checks (hleast : m.least = 1) (hgreatest : m.greatest = 2 ^ 32 - 1) :
    Checks m (positiveOf m.what) := by
  intro value span fault h
  unfold positiveOf at h
  unfold Measure.Allows
  rw [hleast, hgreatest]
  cases hcount : countOf m.what value span with
  | error fault' =>
      obtain ⟨hnot, rfl⟩ := countOf_eq_error hcount
      rw [hcount] at h
      cases h
      exact ⟨fun hrange => hnot (by omega), rfl⟩
  | ok u =>
      have hu := countOf_eq_ok.mp hcount
      rw [hcount] at h
      change (if u = 0 then (throw _ >>= fun _ => pure u : Except ShapeFault UInt32) else pure u) = _ at h
      split at h <;> cases h
      rename_i hzero
      refine ⟨fun hrange => ?_, rfl⟩
      rw [hzero, UInt32.toNat_zero] at hu
      omega

namespace Outlives

/-- A number that is read and checked. -/
theorem checked {check : Int64 → Span → Except ShapeFault α} {what : String} (hn : w.Exchanges n)
    (hm : n.rule.measure? = some m) (h : Checks m check) :
    Outlives w n (fun _ _ => True)
      (do let p ← Shape.number what; check p.1 p.2 : Reading α)
      (do let p ← Shape.number what; check p.1 p.2 : Reading α) :=
  (number hn).bind fun _ _ hpq => lift (h.exchanged hm hpq)

theorem count (hn : w.Exchanges n) (hm : n.rule.measure? = some m) (hleast : m.least = 0)
    (hgreatest : m.greatest = 2 ^ 32 - 1) :
    Outlives w n (fun _ _ => True) (count m.what) (count m.what) :=
  checked hn hm (countOf_checks hleast hgreatest)

theorem positive (hn : w.Exchanges n) (hm : n.rule.measure? = some m) (hleast : m.least = 1)
    (hgreatest : m.greatest = 2 ^ 32 - 1) :
    Outlives w n (fun _ _ => True) (positive m.what) (positive m.what) := by
  rw [positive_eq]
  exact checked hn hm (positiveOf_checks hleast hgreatest)

variable (hw : w.Stays) (hn : w.ExchangesIn n)

include hw hn

theorem countIn? {rule : Rule} (hm : rule.measure? = some m) (hleast : m.least = 0)
    (hgreatest : m.greatest = 2 ^ 32 - 1) :
    Outlives w n (fun _ _ => True) (countIn? rule m.what) (countIn? rule m.what) :=
  option fun _ hk hr => (count (hn.node hk).here (List.mem_singleton.mp hr ▸ hm) hleast hgreatest).parts hw

theorem width? : Outlives w n (fun _ _ => True) width? width? :=
  option fun _ hk hr =>
    (positive (m := .width) (hn.node hk).here (List.mem_singleton.mp hr ▸ rfl) rfl rfl).parts hw

end Outlives

/-! ## Questions and effects -/

section

variable (hw : w.Stays) (hn : w.ExchangesIn n)

include hw hn

/-- What is built of a construct without numbers is built as before. -/
theorem Survives.of_quiet {build : Node → Except ShapeFault α} (hr : !n.rule.leadsToNumbers) :
    Survives P (fun _ _ => True) (build n) (build (w.node n)) := by
  rw [hn.node_eq_of_quiet hw hr]
  exact .same

theorem query_survives (hr : n.rule ∈ Rule.queries) :
    Survives (w.Misfits n) (fun _ _ => True) (query n) (query (w.node n)) := by
  by_cases hchance : n.rule = .condChance
  · unfold query
    rw [Relabelling.rule_node, hchance]
    refine Outlives.parts ?_ hw
    refine (Outlives.number hn.here).bind fun _ _ hpq => ?_
    refine (Outlives.lift (chance_checks.exchanged (by rw [hchance]; rfl) hpq)).bind fun _ _ _ => ?_
    exact .done trivial
  · have hquiet : ∀ r ∈ Rule.queries, r = .condChance ∨ !r.leadsToNumbers := by decide
    exact .of_quiet hw hn ((hquiet _ hr).resolve_left hchance)

theorem effect_survives (hr : n.rule ∈ Rule.effects) :
    Survives (w.Misfits n) (fun _ _ => True) (effect n) (effect (w.node n)) := by
  by_cases hloud : n.rule ∈ [Rule.actAddSeqFlag, .actAddWedge, .actAwardPoints]
  · unfold effect
    rw [Relabelling.rule_node]
    refine Outlives.parts ?_ hw
    simp only [List.mem_cons, List.not_mem_nil, or_false] at hloud
    rcases hloud with hr | hr | hr <;> rw [hr]
    · refine Outlives.name.bind fun _ _ _ => ?_
      exact (Outlives.countIn? (m := .limit) hw hn rfl rfl rfl).bind fun _ _ _ => .done trivial
    · refine Outlives.string.bind fun _ _ _ => (Outlives.width? hw hn).bind fun _ _ _ => ?_
      exact Outlives.name.bind fun _ _ _ => .done trivial
    · refine (Outlives.number hn.here).bind fun _ _ _ => ?_
      exact (Outlives.stringIn? hw _).bind fun _ _ _ => .done trivial
  · have hquiet : ∀ r ∈ Rule.effects,
        r ∈ [Rule.actAddSeqFlag, .actAddWedge, .actAwardPoints] ∨ !r.leadsToNumbers := by decide
    exact .of_quiet hw hn ((hquiet _ hr).resolve_left hloud)

theorem retryPolicy_survives (hr : n.rule ∈ Rule.retries) :
    Survives (w.Misfits n) (fun _ _ => True) (retryPolicy n) (retryPolicy (w.node n)) := by
  by_cases hafter : n.rule = .onFalseRetryAfter
  · unfold retryPolicy
    rw [Relabelling.rule_node, hafter]
    refine Outlives.parts ?_ hw
    exact (Outlives.count (m := .retry) hn.here (hafter ▸ rfl) rfl rfl).bind fun _ _ _ => .done trivial
  · have hquiet : ∀ r ∈ Rule.retries, r = .onFalseRetryAfter ∨ !r.leadsToNumbers := by decide
    exact .of_quiet hw hn ((hquiet _ hr).resolve_left hafter)

end

/-! ## Conditions -/

theorem conditionOver_survives {member : Node → Except ShapeFault Condition} (hw : w.Stays)
    (hn : w.ExchangesIn n) (hr : n.rule ∈ Rule.conditions)
    (hmember : ∀ k ∈ n.nodes, k.rule ∈ Rule.conditions →
      Survives (w.Misfits k) (fun _ _ => True) (member k) (member (w.node k))) :
    Survives (w.Misfits n) (fun _ _ => True) (conditionOver member n)
      (conditionOver member (w.node n)) := by
  unfold conditionOver
  rw [Relabelling.rule_node, Relabelling.nodes_node, Relabelling.span_node, hw]
  split <;> rename_i hgroup
  · have hgroup : n.rule ∈ Rule.groups := by simpa [Rule.groups] using hgroup
    have hslots : n.rule.slots.all (Slot.keepsTo Rule.conditions.contains) := by
      rcases List.mem_pair.mp hgroup with hrule | hrule <;> rw [hrule] <;> decide
    have hmembers : ∀ k ∈ n.nodes,
        Survives (w.Misfits n) (fun _ _ => True) (member k) (member (w.node k)) := by
      intro k hk
      have hkr := Node.rule_of_slots hn.here.filled hslots hk
      exact (hmember k hk (by simpa using hkr)).mono fun _ h => h.below hk
    refine (Survives.mapM hmembers).bind fun as bs hall => ?_
    cases hall with
    | nil => exact .fails
    | cons => exact .done trivial
  · have hquery : n.rule ∈ Rule.queries := by simp_all [Rule.conditions, Rule.groups]
    exact (query_survives hw hn hquery).bind fun _ _ _ => .done trivial

theorem condition_survives {limit levels : Nat} (hw : w.Stays) (hn : w.ExchangesIn n)
    (hr : n.rule ∈ Rule.conditions) :
    Survives (w.Misfits n) (fun _ _ => True) (condition limit levels n)
      (condition limit levels (w.node n)) := by
  induction levels generalizing n with
  | zero => exact conditionOver_survives hw hn hr fun _ _ _ => .fails
  | succ levels ih => exact conditionOver_survives hw hn hr fun k hk hkr => ih (hn.node hk) hkr

/-! ## Collecting faults -/

/-- No fault, or a single one, which satisfies `P`. -/
def AtMostOne (P : ShapeFault → Prop) (fs : List ShapeFault) : Prop :=
  fs = [] ∨ ∃ fault, P fault ∧ fs = [fault]

namespace AtMostOne

variable {fs gs : List ShapeFault} {ns : List Node}

theorem mono (h : AtMostOne P fs) (hP : ∀ fault, P fault → Q fault) : AtMostOne Q fs :=
  h.imp_right fun ⟨fault, hfault, hfs⟩ => ⟨fault, hP fault hfault, hfs⟩

theorem of_survives {x : Except ShapeFault α} {y : Except ShapeFault β} (h : Survives P R x y)
    (hx : failure x = []) : AtMostOne P (failure y) := by
  cases x with
  | error fault => cases hx
  | ok a =>
      rcases h a rfl with ⟨b, rfl, -⟩ | ⟨fault, rfl, hfault⟩
      · exact .inl rfl
      · exact .inr ⟨fault, hfault, rfl⟩

/-- What is given to a builder. -/
theorem given {x : Except ShapeFault α} {y : Except ShapeFault β} {f : α → Collecting γ}
    {g : β → Collecting δ} (hx : Survives P R x y) (h : faults (liftM x >>= f) = [])
    (hf : ∀ a b, x = .ok a → R a b → faults (f a) = [] → AtMostOne P (faults (g b))) :
    AtMostOne P (faults (liftM y >>= g)) := by
  obtain ⟨a, rfl⟩ := exists_ok_of_faults h
  rcases hx a rfl with ⟨b, rfl, hR⟩ | ⟨fault, rfl, hfault⟩
  · exact hf a b rfl hR h
  · exact .inr ⟨fault, hfault, rfl⟩

/-- The faults of all constructs of a list, of which one at most is exchanged. -/
theorem flatMap {f : Node → List ShapeFault}
    (hapart : ns.Pairwise fun k l => w.node k = k ∨ w.node l = l)
    (hnil : ∀ k ∈ ns, f k = []) (hf : ∀ k ∈ ns, AtMostOne P (f (w.node k))) :
    AtMostOne P ((ns.map w.node).flatMap f) := by
  induction ns with
  | nil => exact .inl rfl
  | cons k ns ih =>
      obtain ⟨hk, hns⟩ := List.forall_mem_cons.mp hnil
      obtain ⟨hfk, hfns⟩ := List.forall_mem_cons.mp hf
      obtain ⟨hfirst, hapart⟩ := List.pairwise_cons.mp hapart
      rw [List.map_cons, List.flatMap_cons]
      by_cases hsame : w.node k = k
      · rw [hsame, hk, List.nil_append]
        exact ih hapart hns hfns
      · have hrest : (ns.map w.node).flatMap f = [] := by
          rw [List.flatMap_map, List.flatMap_eq_nil_iff]
          intro l hl
          rw [(hfirst l hl).resolve_left hsame, hns l hl]
        rwa [hrest, List.append_nil]

end AtMostOne

/-! ## Actions -/

section

variable {guard : Node → Except ShapeFault Condition} {body : Node → Collecting (List Statement)}
  {act : Node → Collecting Action} (hw : w.Stays) (hn : w.ExchangesIn n)

namespace Outlives

theorem anchor : Outlives w n (fun _ _ => True) anchor anchor :=
  word.bind fun _ _ _ => done trivial

include hw hn

theorem plainParts (hr : n.rule = .actSchedule) :
    Outlives w n (fun p q => p.2.2.2 ∈ n.nodes ∧ q.2.2.2 = w.node p.2.2.2) plainParts plainParts := by
  refine anchor.bind fun _ _ _ => ?_
  refine (count (m := .turns) hn.here (by rw [hr]; rfl) rfl rfl).bind fun _ _ _ => ?_
  exact (stringIn? hw _).bind fun _ _ _ => child.bind fun _ _ h => done h

theorem scheduleParts (hr : n.rule = .actScheduleIf) :
    Outlives w n (fun p q => (p.guard ∈ n.nodes ∧ q.guard = w.node p.guard) ∧
      p.body ∈ n.nodes ∧ q.body = w.node p.body) scheduleParts scheduleParts := by
  rw [scheduleParts_eq]
  refine anchor.bind fun _ _ _ => ?_
  refine (count (m := .turns) hn.here (by rw [hr]; rfl) rfl rfl).bind fun _ _ _ => ?_
  refine child.bind fun _ _ hguard => ?_
  have hretry : ∀ k ∈ n.nodes, k.rule ∈ Rule.retries →
      Survives (w.Misfits k) (fun _ _ => True) (retryPolicy k) (retryPolicy (w.node k)) :=
    fun k hk => retryPolicy_survives hw (hn.node hk)
  refine (option hretry).bind fun _ _ _ => (stringIn? hw _).bind fun _ _ _ => ?_
  exact child.bind fun _ _ hbody => done ⟨hguard, hbody⟩

end Outlives

include hw hn

theorem plainSchedule_atMostOne (hr : n.rule = .actSchedule) (h : faults (plainSchedule body n) = [])
    (hbody : ∀ k ∈ n.nodes, k.rule = .triggerBlock → faults (body k) = [] →
      AtMostOne (w.Misfits k) (faults (body (w.node k)))) :
    AtMostOne (w.Misfits n) (faults (plainSchedule body (w.node n))) := by
  have hrow := n.filled_row hn.filled
  rw [hr] at hrow
  refine AtMostOne.given ((Outlives.plainParts hw hn hr).parts hw) h fun p q hp hpq h => ?_
  obtain ⟨hmem, hq⟩ := hpq
  obtain ⟨hblock, -⟩ := (hrow.parts ReadsHead.any.plain).ok hp
  have hfaults := hbody _ hmem hblock (faults_map.symm.trans h)
  rw [← hq] at hfaults
  exact (faults_map.symm ▸ hfaults).mono fun _ h => h.below hmem

theorem guardedSchedule_atMostOne (hr : n.rule = .actScheduleIf)
    (h : faults (guardedSchedule guard body n) = [])
    (hguard : ∀ k ∈ n.nodes, k.rule ∈ Rule.conditions →
      Survives (w.Misfits k) (fun _ _ => True) (guard k) (guard (w.node k)))
    (hbody : ∀ k ∈ n.nodes, k.rule = .triggerBlock → faults (body k) = [] →
      AtMostOne (w.Misfits k) (faults (body (w.node k)))) :
    AtMostOne (w.Misfits n) (faults (guardedSchedule guard body (w.node n))) := by
  have hrow := n.filled_row hn.filled
  rw [hr] at hrow
  obtain ⟨p, hp⟩ := exists_ok_of_faults h
  obtain ⟨⟨hcondition, -⟩, hblock, -⟩ := (hrow.parts ReadsHead.any.guarded).ok hp
  rw [faults_guardedSchedule hp, List.append_eq_nil_iff] at h
  obtain ⟨hnone, hholds⟩ := h
  rcases (Outlives.scheduleParts hw hn hr).parts hw p hp with
    ⟨q, hq, ⟨hg, hguardq⟩, hb, hbodyq⟩ | ⟨fault, hfault, hmisfit⟩
  · rw [faults_guardedSchedule hq, hguardq, hbodyq]
    have hguard := AtMostOne.of_survives (hguard _ hg hcondition) hholds
    have hbody := hbody _ hb hblock hnone
    have hne : p.guard ≠ p.body := by
      intro heq
      rw [heq, hblock] at hcondition
      exact absurd hcondition (by decide)
    -- One of the two is as before, and there is nothing at fault in it.
    rcases hn.here.apart_nodes hg hb hne with hsame | hsame
    · rw [hsame, hholds, List.append_nil]
      exact hbody.mono fun _ h => h.below hb
    · rw [hsame, hnone, List.nil_append]
      exact hguard.mono fun _ h => h.below hg
  · refine .inr ⟨fault, hmisfit, ?_⟩
    unfold guardedSchedule
    rw [hfault]
    rfl

theorem actionOver_atMostOne (hr : n.rule ∈ Rule.actions) (h : faults (actionOver guard body n) = [])
    (hguard : ∀ k ∈ n.nodes, k.rule ∈ Rule.conditions →
      Survives (w.Misfits k) (fun _ _ => True) (guard k) (guard (w.node k)))
    (hbody : ∀ k ∈ n.nodes, k.rule = .triggerBlock → faults (body k) = [] →
      AtMostOne (w.Misfits k) (faults (body (w.node k)))) :
    AtMostOne (w.Misfits n) (faults (actionOver guard body (w.node n))) := by
  unfold actionOver at h ⊢
  rw [Relabelling.rule_node]
  split at h <;> rename_i hrule
  · rw [hn.node_eq_of_quiet hw (by rw [hrule]; rfl)]
    exact .inl h
  · exact plainSchedule_atMostOne hw hn hrule h hbody
  · exact guardedSchedule_atMostOne hw hn hrule h hguard hbody
  · have heffect : n.rule ∈ Rule.effects := by simp_all [Rule.actions]
    exact AtMostOne.given (effect_survives hw hn heffect) h fun _ _ _ _ _ => .inl rfl

end

/-! ## Statements -/

section

variable {guard : Node → Except ShapeFault Condition} {act : Node → Collecting Action}
  (hn : w.ExchangesIn n)

include hn

theorem deed_atMostOne (hr : n.rule = .doStmt) (h : faults (deed act n) = [])
    (hact : ∀ k ∈ n.nodes, k.rule ∈ Rule.actions → faults (act k) = [] →
      AtMostOne (w.Misfits k) (faults (act (w.node k)))) :
    AtMostOne (w.Misfits n) (faults (deed act (w.node n))) := by
  obtain ⟨a, hnodes, hrule, hfaults⟩ := faults_deed act hr hn.here.filled
  obtain ⟨a', hnodes', -, hfaults'⟩ :=
    faults_deed act ((w.rule_node n).trans hr) hn.here.relabelled
  obtain rfl : w.node a = a' := by simpa [hnodes] using hnodes'
  have hmem : a ∈ n.nodes := by simp [hnodes]
  rw [hfaults] at h
  rw [hfaults']
  exact (hact a hmem hrule h).mono fun _ h => h.below hmem

theorem branch_atMostOne (hr : n.rule = .condBlock) (hblind : ∀ k, Blind (act k))
    (h : faults (branch guard act n) = [])
    (hguard : ∀ k ∈ n.nodes, k.rule ∈ Rule.conditions →
      Survives (w.Misfits k) (fun _ _ => True) (guard k) (guard (w.node k)))
    (hdeed : ∀ k ∈ n.nodes, k.rule = .doStmt → faults (deed act k) = [] →
      AtMostOne (w.Misfits k) (faults (deed act (w.node k)))) :
    AtMostOne (w.Misfits n) (faults (branch guard act (w.node n))) := by
  have hrow := n.filled_row hn.filled
  rw [hr] at hrow
  obtain ⟨c, cs, hcs, hc, -, hrest⟩ := hrow.child
  have hnodes : n.nodes = c :: Element.nodes cs := by simp [Node.nodes, hcs]
  have hread : n.head (child "condition") = .ok (c, cs) :=
    head_eq_ok.mpr (reads_child.mpr hcs)
  have hread' : (w.node n).head (child "condition") = .ok (w.node c, w.elements cs) := by
    refine head_eq_ok.mpr (reads_child.mpr ?_)
    rw [Relabelling.children_node, hcs]
    rfl
  rw [faults_branch hblind hread, List.append_eq_nil_iff] at h
  obtain ⟨hdeeds, hend⟩ := h
  have hne := ne_nil_of_branchEnd hend
  rw [failure_branchEnd hne] at hend
  rw [List.flatMap_eq_nil_iff] at hdeeds
  have hdeed : ∀ k ∈ Element.nodes cs, AtMostOne (w.Misfits n) (faults (deed act (w.node k))) := by
    intro k hk
    have hmem : k ∈ n.nodes := by simp [hnodes, hk]
    exact (hdeed k hmem (List.mem_singleton.mp (hrest.nodes k hk).1) (hdeeds k hk)).mono
      fun _ h => h.below hmem
  have hguard : AtMostOne (w.Misfits n) (failure (guard (w.node c))) := by
    have hmem : c ∈ n.nodes := by simp [hnodes]
    exact (AtMostOne.of_survives (hguard c hmem hc) hend).mono fun _ h => h.below hmem
  have hapart := hn.here.pairwise_nodes
  rw [hnodes, List.pairwise_cons] at hapart
  rw [faults_branch hblind hread', Relabelling.nodes_elements,
    failure_branchEnd (by simpa using hne)]
  obtain ⟨hfirst, hapart⟩ := hapart
  by_cases hsame : w.node c = c
  · rw [hsame, hend, List.append_nil]
    exact AtMostOne.flatMap hapart hdeeds hdeed
  · have hstay : ((Element.nodes cs).map w.node).flatMap (fun k => faults (deed act k)) = [] := by
      rw [List.flatMap_map, List.flatMap_eq_nil_iff]
      intro k hk
      rw [(hfirst k hk).resolve_left hsame, hdeeds k hk]
    rwa [hstay, List.nil_append]

theorem statement_atMostOne (hr : n.rule ∈ Rule.statements) (hblind : ∀ k, Blind (act k))
    (h : faults (statement guard act n) = [])
    (hguard : ∀ k, w.ExchangesIn k → k.rule ∈ Rule.conditions →
      Survives (w.Misfits k) (fun _ _ => True) (guard k) (guard (w.node k)))
    (hact : ∀ k, w.ExchangesIn k → k.rule ∈ Rule.actions → faults (act k) = [] →
      AtMostOne (w.Misfits k) (faults (act (w.node k)))) :
    AtMostOne (w.Misfits n) (faults (statement guard act (w.node n))) := by
  have hrule : n.rule = .doStmt ∨ n.rule = .condBlock := by simpa [Rule.statements] using hr
  rcases hrule with hrule | hrule
  · rw [faults_statement hrule] at h
    rw [faults_statement ((w.rule_node n).trans hrule)]
    exact deed_atMostOne hn hrule h fun k hk => hact k (hn.node hk)
  · simp only [statement, Relabelling.rule_node, hrule] at h ⊢
    refine branch_atMostOne hn hrule hblind h (fun k hk => hguard k (hn.node hk)) ?_
    intro k hk hkr h
    exact deed_atMostOne (hn.node hk) hkr h fun l hl => hact l ((hn.node hk).node hl)

theorem statements_atMostOne (hr : n.rule = .triggerBlock) (hblind : ∀ k, Blind (act k))
    (h : faults (statements guard act n) = [])
    (hguard : ∀ k, w.ExchangesIn k → k.rule ∈ Rule.conditions →
      Survives (w.Misfits k) (fun _ _ => True) (guard k) (guard (w.node k)))
    (hact : ∀ k, w.ExchangesIn k → k.rule ∈ Rule.actions → faults (act k) = [] →
      AtMostOne (w.Misfits k) (faults (act (w.node k)))) :
    AtMostOne (w.Misfits n) (faults (statements guard act (w.node n))) := by
  have hrow := n.filled_row hn.filled
  rw [hr] at hrow
  rw [faults_statements hblind] at h ⊢
  split at h
  · cases h
  · rename_i hne
    rw [List.flatMap_eq_nil_iff] at h
    rw [Relabelling.nodes_node, if_neg (by simpa using hne)]
    refine AtMostOne.flatMap hn.here.pairwise_nodes h fun k hk => ?_
    exact (statement_atMostOne (hn.node hk) (hrow.nodes k hk).1 hblind (h k hk) hguard hact).mono
      fun _ h => h.below hk

end

theorem action_atMostOne {limit levels : Nat} (hw : w.Stays) (hn : w.ExchangesIn n)
    (hr : n.rule ∈ Rule.actions) (h : faults (action limit levels n) = []) :
    AtMostOne (w.Misfits n) (faults (action limit levels (w.node n))) := by
  induction levels generalizing n with
  | zero =>
      refine actionOver_atMostOne hw hn hr h
        (fun k hk hkr => condition_survives hw (hn.node hk) hkr) fun k hk hkr h => ?_
      cases h
  | succ levels ih =>
      refine actionOver_atMostOne hw hn hr h
        (fun k hk hkr => condition_survives hw (hn.node hk) hkr) fun k hk hkr h => ?_
      exact statements_atMostOne (hn.node hk) hkr (blind_action limit levels) h
        (fun l hl hlr => condition_survives hw hl hlr) fun l hl hlr h => ih hl hlr h

/-! ## Triggers and spinners -/

section

variable (hw : w.Stays) (hn : w.ExchangesIn n)

include hw hn

theorem trigger_atMostOne {limit : Nat} (hr : n.rule = .triggerDef)
    (h : faults (trigger limit n) = []) :
    AtMostOne (w.Misfits n) (faults (trigger limit (w.node n))) := by
  obtain ⟨b, hb⟩ := Node.exists_body hn.here.filled (by simp [hr])
  have hb' : (w.node n).HasBody (w.node b) := by
    refine ⟨?_, (w.rule_node b).trans hb.rule, fun k hk => ?_⟩
    · rw [Relabelling.nodes_node]
      exact List.mem_map_of_mem hb.mem
    · rw [Relabelling.nodes_node] at hk
      obtain ⟨l, hl, rfl⟩ := List.mem_map.mp hk
      rw [Relabelling.rule_node]
      exact (hb.only l hl).imp_left (congrArg w.node)
  rw [faults_trigger hr hn.filled hb] at h
  rw [faults_trigger ((w.rule_node n).trans hr) hn.relabelled hb']
  refine (statements_atMostOne (hn.node hb.mem) hb.rule (blind_action _ _) h
    (fun k hk hkr => condition_survives hw hk hkr) fun k hk hkr h => ?_).mono
      fun _ h => h.below hb.mem
  exact action_atMostOne hw hk hkr h

theorem wedge_survives : Survives (w.Misfits n) (fun _ _ => True) (wedge n) (wedge (w.node n)) := by
  unfold wedge
  rw [Relabelling.rule_node]
  split
  · exact .fails
  · exact ((Outlives.string.bind fun _ _ _ => (Outlives.width? hw hn).bind fun _ _ _ =>
      .done trivial).parts hw)

theorem spinner_survives :
    Survives (w.Misfits n) (fun _ _ => True) (spinner n) (spinner (w.node n)) := by
  have hid : Outlives w n (fun _ _ => True) (wordOrString "spinner id") (wordOrString "spinner id") :=
    Outlives.token.bind fun _ _ _ => .done trivial
  refine (hid.head hw).bind ?_
  rintro ⟨id, rest⟩ ⟨id', rest'⟩ ⟨hsub, hrest, -⟩
  obtain rfl : rest' = w.elements rest := hrest
  dsimp only at hsub ⊢
  rw [Relabelling.nodes_elements]
  refine (Survives.mapM (R := fun _ _ => True) fun k hk => ?_).bind fun ws ws' hall => ?_
  · have hk : k ∈ n.nodes := Node.mem_nodes.mpr (hsub (Element.mem_nodes.mp hk))
    exact (wedge_survives hw (hn.node hk)).mono fun _ h => h.below hk
  · cases hall with
    | nil => exact .fails
    | cons => exact .done trivial

end

/-! ## Items -/

/-- Where `x` makes something, `y` does too, up to one fault as expected. -/
def Tolerates (P : ShapeFault → Prop) (R : α → β → Prop) (x : Collecting α) (y : Collecting β) : Prop :=
  ∀ a, Makes x a → ∃ b fs, y [] = .ok b fs ∧ AtMostOne P fs ∧ R a b

theorem Tolerates.mono {R : α → β → Prop} {x : Collecting α} {y : Collecting β}
    (h : Tolerates P R x y) (hP : ∀ fault, P fault → Q fault) : Tolerates Q R x y := by
  intro a ha
  obtain ⟨b, fs, hrun, hfs, hR⟩ := h a ha
  exact ⟨b, fs, hrun, hfs.mono hP, hR⟩

/-- A block in which one statement at most is exchanged. -/
theorem keepChanges_tolerates {change : α → Node → Collecting α} {R : α → α → Prop} {b b' : α}
    {ns : List Node} (hblind : ∀ b n, Blind (change b n))
    (hsame : ∀ b b' k a, R b b' → Makes (change b k) a → ∃ a', Makes (change b' k) a' ∧ R a a')
    (hapart : ns.Pairwise fun k l => w.node k = k ∨ w.node l = l)
    (hstep : ∀ k ∈ ns, ∀ b b', R b b' → Tolerates P R (change b k) (change b' (w.node k)))
    (hb : R b b') :
    Tolerates P R (keepChanges change b ns) (keepChanges change b' (ns.map w.node)) := by
  induction ns generalizing b b' with
  | nil =>
      intro a ha
      obtain rfl := makes_done.mp ha
      exact ⟨b', [], rfl, .inl rfl, hb⟩
  | cons k ns ih =>
      intro a ha
      obtain ⟨hfirst, hapart⟩ := List.pairwise_cons.mp hapart
      obtain ⟨hstepk, hstep⟩ := List.forall_mem_cons.mp hstep
      obtain ⟨c, hc, ha⟩ := (makes_keepChanges_cons hblind).mp ha
      rw [List.map_cons]
      by_cases hk : w.node k = k
      · obtain ⟨c', hc', hR⟩ := hsame b b' k c hb hc
        obtain ⟨a', fs, hrest, hfs, hR⟩ := ih hapart hstep hR a ha
        rw [hk]
        exact ⟨a', fs, run_keepChanges_cons hblind hc' hrest, hfs, hR⟩
      · have hstay : ns.map w.node = ns :=
          (List.map_congr_left fun l hl => (hfirst l hl).resolve_left hk).trans (List.map_id _)
        obtain ⟨c', fs, hrun, hfs, hR⟩ := hstepk b b' hb c hc
        obtain ⟨a', ha', hR⟩ := exists_keepChanges hblind hsame hR ha
        rw [hstay]
        exact ⟨a', fs ++ [], run_keepChanges_cons hblind hrun ha', by rwa [List.append_nil], hR⟩
/-- Drafts that may tell another number of uses. -/
abbrev SameUses : ConsumableDraft → ConsumableDraft → Prop :=
  SameBut Consumable.fields Consumable.usesField

/-- Items that may have another consumable. -/
abbrev SameConsumable : Item → Item → Prop :=
  SameBut Item.fields Item.consumableField

theorem sameUses_of_makes {d d' c : ConsumableDraft} (hd : SameUses d d')
    (h : Makes (consumableStatement d n) c) :
    ∃ c', Makes (consumableStatement d' n) c' ∧ SameUses c c' :=
  Consumable.goesBy.sameBut Consumable.usesField_mem (fun ⟨_, _, hnone, _⟩ => hnone) hd h

theorem sameConsumable_of_makes {i i' j : Item} (hi : SameConsumable i i')
    (h : Makes (itemStatement i n) j) : ∃ j', Makes (itemStatement i' n) j' ∧ SameConsumable j j' :=
  Item.goesBy.sameBut Item.consumableField_mem (fun ⟨_, _, hnone, _⟩ => hnone) hi h

theorem not_allows_uses {value : Int64} (h : (unsigned? value).getD 0 = 0) :
    ¬Measure.uses.Allows value.toInt := by
  rintro ⟨hleast, hgreatest⟩
  have hleast : 1 ≤ value.toInt := hleast
  have hgreatest : value.toInt ≤ 2 ^ 32 - 1 := hgreatest
  have hu : unsigned? value = some (UInt32.ofNat value.toInt.toNat) := by
    rw [unsigned?, if_pos ⟨by omega, Int.lt_of_le_of_lt hgreatest (by decide)⟩]
  rw [hu, Option.getD_some, ← UInt32.toNat_inj, UInt32.toNat_ofNat', UInt32.toNat_zero] at h
  omega

section

variable (hn : w.ExchangesIn n)

include hn

/-- A number of uses that is out of range is a fault; it fills the slot nevertheless. -/
theorem consumableUses_tolerates {d d' : ConsumableDraft} (hr : n.rule = .consumableUses)
    (hd : SameUses d d') : Tolerates (w.Misfits n) SameUses (consumableStatement d n)
      (consumableStatement d' (w.node n)) := by
  intro c hc
  unfold consumableStatement at hc ⊢
  simp only [Relabelling.rule_node, hr] at hc ⊢
  obtain ⟨_, ⟨u, ⟨t, rest, value, hcs, hvalue, -⟩, hnone, rfl⟩, rfl⟩ := Consumable.makes_uses.mp hc
  have hnone' : d'.usesLeft = none := hd.empty.mpr hnone
  have hown : n.numerals = [⟨.uses, t⟩] :=
    Node.numerals_of_number hn.filled (by rw [hr]; rfl) (by rw [hr]; rfl) (by rw [hcs]; rfl)
  obtain ⟨value', hvalue'⟩ : ∃ v, Text.Integer.word? (w.token t).text.toList = some v := by
    rcases hn.here.tokens t (by simp [Node.tokens, hcs]) with hsame | ⟨hword, -⟩
    · exact ⟨value, by rw [hsame, hvalue]⟩
    · exact Option.isSome_iff_exists.mp hword
  have hread : (w.node n).parts (number "uses_left") = .ok (value', (w.token t).span) := by
    refine parts_eq_ok.mpr ⟨w.elements rest, reads_number.mpr ⟨w.token t, ?_, hvalue', rfl⟩⟩
    rw [Relabelling.children_node, hcs]
    rfl
  have hset (u' : UInt32) : SameUses { d with usesLeft := some u } { d' with usesLeft := some u' } := by
    have hfull : (some u' : Option UInt32) = none ↔ some u = none := by simp
    exact hd.set Consumable.usesField_mem Consumable.goesBy.lawful hfull
  rw [hread]
  refine ⟨{ d' with usesLeft := some ((unsigned? value').getD 0) },
    if (unsigned? value').getD 0 = 0 then [.outOfRange "uses_left" value'.toInt (w.token t).span]
      else [], ?_, ?_, hset _⟩
  · change (if (unsigned? value').getD 0 = 0 then _ else _ : Collecting ConsumableDraft) [] = _
    split <;> rw [hnone'] <;> rfl
  · split
    · refine .inr ⟨_, ⟨⟨.uses, t⟩, by simp [hown], _, Text.Integer.word?_eq_some.mp hvalue', ?_, rfl⟩, rfl⟩
      exact not_allows_uses ‹_›
    · exact .inl rfl

variable (hw : w.Stays)

include hw

theorem consumableStatement_tolerates {d d' : ConsumableDraft}
    (hr : n.rule ∈ Rule.consumableStatements) (hd : SameUses d d') :
    Tolerates (w.Misfits n) SameUses (consumableStatement d n)
      (consumableStatement d' (w.node n)) := by
  by_cases huses : n.rule = .consumableUses
  · exact consumableUses_tolerates hn huses hd
  · have hquiet : ∀ r ∈ Rule.consumableStatements, r = .consumableUses ∨ !r.leadsToNumbers := by
      decide
    rw [hn.node_eq_of_quiet hw ((hquiet _ hr).resolve_left huses)]
    intro c hc
    obtain ⟨c', hc', hsame⟩ := sameUses_of_makes hd hc
    exact ⟨c', [], hc', .inl rfl, hsame⟩

theorem consumable_tolerates (hr : n.rule = .consumable) :
    Tolerates (w.Misfits n) (fun _ _ => True) (consumable n) (consumable (w.node n)) := by
  have hrow := n.filled_row hn.filled
  rw [hr] at hrow
  intro c hc
  unfold consumable at hc ⊢
  obtain ⟨d, hd, hc⟩ :=
    (makes_bind fun _ => (Blind.lift _).bind fun _ => (Blind.lift _).bind fun _ => .done _).mp hc
  obtain ⟨uses, huses, hc⟩ := makes_given.mp hc
  obtain ⟨when, hwhen, -⟩ := makes_given.mp hc
  rw [require_eq_ok] at huses hwhen
  have hstep (k : Node) (hk : k ∈ n.nodes) (d d' : ConsumableDraft) (hd : SameUses d d') :
      Tolerates (w.Misfits n) SameUses (consumableStatement d k)
        (consumableStatement d' (w.node k)) :=
    (consumableStatement_tolerates (hn.node hk) hw (hrow.nodes k hk).1 hd).mono fun _ h => h.below hk
  have hstart : SameUses {} {} := ⟨fun _ _ _ => rfl, Iff.rfl⟩
  obtain ⟨d', fs, hrun, hfs, hsame⟩ := keepChanges_tolerates blind_consumableStatement
    (fun _ _ _ _ => sameUses_of_makes) hn.here.pairwise_nodes hstep hstart d hd
  obtain ⟨uses', huses'⟩ : ∃ u, d'.usesLeft = some u := by
    refine Option.ne_none_iff_exists'.mp fun hnone => ?_
    cases huses.symm.trans (hsame.empty.mp hnone)
  have hwhen' : d'.whenConsumed = some when := by
    refine (hsame.others ⟨_, .slot WhenConsumed.ToldBy, (·.whenConsumed), _⟩
      (List.mem_cons_of_mem _ (List.mem_cons_of_mem _ List.mem_cons_self)) fun heq => ?_).trans hwhen
    cases congrArg Field.rules heq
  refine ⟨⟨uses', d'.consumeOn, when⟩, fs, ?_, hfs, trivial⟩
  rw [Relabelling.nodes_node, run_bind, hrun]
  dsimp only
  rw [huses', hwhen']
  rfl

theorem itemStatement_tolerates {i i' : Item} (hr : n.rule ∈ Rule.itemStatements)
    (hi : SameConsumable i i') :
    Tolerates (w.Misfits n) SameConsumable (itemStatement i n) (itemStatement i' (w.node n)) := by
  intro j hj
  by_cases hconsumable : n.rule = .consumable
  · unfold itemStatement at hj ⊢
    simp only [Relabelling.rule_node, hconsumable] at hj ⊢
    obtain ⟨c, hc, hj⟩ := (makes_bind fun _ => Blind.setOnce).mp hj
    obtain ⟨hnone, rfl⟩ := makes_setOnce.mp hj
    have hnone' : i'.consumable = none := hi.empty.mpr hnone
    obtain ⟨c', fs, hrun, hfs, -⟩ := consumable_tolerates hn hw hconsumable c hc
    refine ⟨{ i' with consumable := some c' }, fs, ?_, hfs, ?_⟩
    · rw [run_bind, hrun, hnone']
      rfl
    · have hfull : (some c' : Option Consumable) = none ↔ some c = none := by simp
      exact hi.set Item.consumableField_mem Item.goesBy.lawful hfull
  · have hquiet : ∀ r ∈ Rule.itemStatements, r = .consumable ∨ !r.leadsToNumbers := by decide
    rw [hn.node_eq_of_quiet hw ((hquiet _ hr).resolve_left hconsumable)]
    obtain ⟨j', hj', hsame⟩ := sameConsumable_of_makes hi hj
    exact ⟨j', [], hj', .inl rfl, hsame⟩

theorem item_atMostOne (hr : n.rule = .itemDef) (h : faults (item n) = []) :
    AtMostOne (w.Misfits n) (faults (item (w.node n))) := by
  have hslots : n.rule.slots.all (Slot.keepsTo Rule.itemStatements.contains) := by
    rw [hr]
    decide
  have hrule (k : Node) (hk : k ∈ n.nodes) : k.rule ∈ Rule.itemStatements := by
    simpa using Node.rule_of_slots hn.here.filled hslots hk
  have hstep (k : Node) (hk : k ∈ n.nodes) (i i' : Item) (hi : SameConsumable i i') :
      Tolerates (w.Misfits n) SameConsumable (itemStatement i k) (itemStatement i' (w.node k)) :=
    (itemStatement_tolerates (hn.node hk) hw (hrule k hk) hi).mono fun _ h => h.below hk
  refine AtMostOne.given (Outlives.name.head hw) h ?_
  rintro ⟨id, rest⟩ ⟨id', rest'⟩ hread ⟨-, hrest, -⟩ h
  obtain rfl : rest' = w.elements rest := hrest
  obtain ⟨t, hcs, -⟩ := reads_id.mp (head_eq_ok.mp hread)
  have hnodes : Element.nodes rest = n.nodes := by simp [Node.nodes, hcs]
  obtain ⟨i, hi⟩ := exists_makes h
  dsimp only at hi ⊢
  rw [hnodes] at hi
  rw [Relabelling.nodes_elements, hnodes]
  let plain (j : Id .item) (s : Span) : Item :=
    ⟨j, none, none, none, none, none, [], [], none, [], none, s⟩
  have hplain : SameConsumable (plain id n.span) (plain id' (w.node n).span) :=
    ⟨by simp [plain, Item.fields], by simp [plain, Item.consumableField]⟩
  obtain ⟨i', fs, hrun, hfs, -⟩ := keepChanges_tolerates blind_itemStatement
    (fun _ _ _ _ => sameConsumable_of_makes) hn.here.pairwise_nodes hstep hplain i hi
  rw [faults_of_ok hrun]
  exact hfs

/-! ### All of them -/

/-- Where a number of a definition without a fault is exchanged, there is no fault in it afterwards,
or a single one: that the new number is out of range. -/
theorem definition_atMostOne {limit : Nat} (h : faults (definition limit n) = []) :
    AtMostOne (w.Misfits n) (faults (definition limit (w.node n))) := by
  by_cases htrigger : n.rule = .triggerDef
  · rw [faults_definition htrigger] at h
    rw [faults_definition ((w.rule_node n).trans htrigger)]
    exact trigger_atMostOne hw hn htrigger h
  · by_cases hquiet : n.rule.leadsToNumbers
    · unfold definition at h ⊢
      rw [Relabelling.rule_node]
      split at h <;> rename_i hr
      case h_3 => exact faults_map.symm ▸ item_atMostOne hn hw hr (faults_map.symm.trans h)
      case h_6 => exact AtMostOne.given (spinner_survives hw hn) h fun _ _ _ _ _ => .inl rfl
      case h_8 => cases h
      case h_5 => exact absurd hr htrigger
      all_goals exact absurd hquiet (by rw [hr]; decide)
    · rw [hn.node_eq_of_quiet hw (by simpa using hquiet)]
      exact .inl h

end

end Shape

end Storyworld
