import Storyworld.Proofs.Shape.Patches

namespace Storyworld

/-! The order of statements. In most blocks it matters only among statements that lengthen the same
list: with its statements in another order, and those in their old one, a block is built into the
same. -/

open Shape

/-! ## Reordering -/

namespace Rule

/-- The statements of a block whose fields they tell. -/
def statementsOf : Rule → List Rule
  | roomDef => roomStatements
  | exitBlock => exitOptions
  | itemDef => itemStatements
  | consumable => consumableStatements
  | npcDef => npcStatements
  | npcMovement => movementOptions
  | goalDef => goalStatements
  | actModifyItem => patches
  | _ => []

/-- The kinds of statements that lengthen a list. -/
def repeatable : List (List Rule) :=
  [[exit], overlays, [exitRequiredItems], [exitRequiredFlags], [ability], [itemText],
    [itemRequires], [consumeOn], [dialogue], [patchAddAbility], [patchRemoveAbility]]

end Rule

/-- The statements of one block are put into another order, in which those of a repeatable kind
follow one another as before. -/
inductive Node.Reorders : Node → Node → Prop
  | here {r : Rule} {s : Span} {head : List Element} {ns ns' : List Node} :
      (∀ n ∈ ns, n.rule ∈ r.statementsOf) → ns.Perm ns' →
      (∀ kind ∈ Rule.repeatable, ns.filter (·.rule ∈ kind) = ns'.filter (·.rule ∈ kind)) →
      Reorders (.mk r s (head ++ ns.map .node)) (.mk r s (head ++ ns'.map .node))
  | inside {r : Rule} {s : Span} {front back : List Element} {m m' : Node} :
      m.Reorders m' → Reorders (.mk r s (front ++ .node m :: back)) (.mk r s (front ++ .node m' :: back))

namespace Node.Reorders

variable {T : Token → Prop} {n n' : Node} {r : Rule} {s : Span} {t : Token} {c : Element}
  {cs : List Element}

theorem rule (h : n.Reorders n') : n'.rule = n.rule := by
  cases h <;> rfl

theorem span (h : n.Reorders n') : n'.span = n.span := by
  cases h <;> rfl

theorem length_nodes (h : n.Reorders n') : n'.nodes.length = n.nodes.length := by
  cases h with
  | here hns hperm hkinds => simp [nodes, children, hperm.length_eq]
  | inside hm => simp [nodes, children]

/-- Where there are no such blocks, nothing is reordered. -/
theorem eq_of_not_leadsToBlocks (h : n.Reorders n') (hn : n.Every (fun m => m.isFilled) T)
    (hr : !n.rule.leadsToBlocks) : n' = n := by
  induction h with
  | @here r s head ns ns' hns hperm _ =>
      have hnone : r.statementsOf = [] := by
        revert hr
        change (!r.leadsToBlocks) = true → _
        cases r <;> decide
      obtain rfl : ns = [] := List.eq_nil_iff_forall_not_mem.mpr fun n hn => by
        simpa [hnone] using hns n hn
      rw [List.nil_perm.mp hperm]
  | @inside r s front back m m' hm ih =>
      have hmem : m ∈ (Node.mk r s (front ++ .node m :: back)).nodes := mem_nodes.mpr (by simp [children])
      rw [ih (hn.node hmem) (rule_of_closed Rule.closed_not_leadsToBlocks hn.here hr hmem)]

/-- What is in front of the statements stays in front. -/
theorem of_cons (h : (Node.mk r s (c :: cs)).Reorders n')
    (hc : ∀ m, c = .node m → m.rule ∉ r.statementsOf) :
    (∃ cs', n' = .mk r s (c :: cs') ∧ (Node.mk r s cs).Reorders (.mk r s cs')) ∨
      ∃ m m', c = .node m ∧ m.Reorders m' ∧ n' = .mk r s (.node m' :: cs) := by
  generalize hn : Node.mk r s (c :: cs) = n at h
  cases h with
  | @here r' s' head ns ns' hns hperm hkinds =>
      obtain ⟨rfl, rfl, hcs⟩ := Node.mk.inj hn
      cases head with
      | nil =>
          cases ns with
          | nil => cases hcs
          | cons m ns =>
              obtain ⟨rfl, -⟩ := List.cons.inj hcs
              exact absurd (hns m (by simp)) (hc m rfl)
      | cons c' head =>
          obtain ⟨rfl, rfl⟩ := List.cons.inj hcs
          exact .inl ⟨_, rfl, .here hns hperm hkinds⟩
  | @inside r' s' front back m m' hm =>
      obtain ⟨rfl, rfl, hcs⟩ := Node.mk.inj hn
      cases front with
      | nil =>
          obtain ⟨rfl, rfl⟩ := List.cons.inj hcs
          exact .inr ⟨m, m', rfl, hm, rfl⟩
      | cons c' front =>
          obtain ⟨rfl, rfl⟩ := List.cons.inj hcs
          exact .inl ⟨_, rfl, .inside hm⟩

theorem of_nil (h : (Node.mk r s []).Reorders n') : n' = .mk r s [] := by
  generalize hn : Node.mk r s [] = n at h
  cases h with
  | @here r' s' head ns ns' hns hperm hkinds =>
      obtain ⟨rfl, rfl, hcs⟩ := Node.mk.inj hn
      obtain ⟨rfl, hns⟩ := List.append_eq_nil_iff.mp hcs.symm
      obtain rfl := List.map_eq_nil_iff.mp hns
      rw [List.nil_perm.mp hperm]
  | @inside r' s' front back m m' hm => simp at hn

theorem of_token (h : (Node.mk r s (.token t :: cs)).Reorders n') :
    ∃ cs', n' = .mk r s (.token t :: cs') ∧ (Node.mk r s cs).Reorders (.mk r s cs') :=
  (h.of_cons nofun).resolve_right (by simp)

/-- What is said at the front of a construct is said there still. -/
theorem namedBy {of : Referent} {i : Id of} (h : n.Reorders n') (hi : NamedBy i n) :
    NamedBy i n' := by
  obtain ⟨t, rest, hcs, ht⟩ := hi
  obtain ⟨r, s, cs⟩ := n
  obtain rfl : cs = .token t :: rest := hcs
  obtain ⟨rest', rfl, -⟩ := h.of_token
  exact ⟨t, rest', rfl, ht⟩

end Node.Reorders

/-! ## Tables -/

section

variable {σ : Type} {T : Token → Prop} {fields : List (Field σ)} {f : Field σ} {b : σ} {n n' m m' : Node}
  {ns ns' front back : List Node}

/-- What a statement tells a field it tells reordered, too. -/
def Field.Withstands (T : Token → Prop) (f : Field σ) : Prop :=
  ∀ {m m' : Node}, m.Reorders m' → m.Every (fun k => k.isFilled) T → m.rule ∈ f.rules →
    ∀ {a a'}, f.keeping.Takes a m a' → f.keeping.Takes a m' a'

/-- A statement without blocks in it cannot be reordered. -/
theorem Field.withstands_of_plain (h : ∀ r ∈ f.rules, !r.leadsToBlocks) : f.Withstands T := by
  intro m m' hm hfilled hr a a' ha
  rwa [hm.eq_of_not_leadsToBlocks hfilled (h _ hr)]

/-- It matters only within a list in which order the statements stand. -/
theorem Gathers.perm (hfields : ∀ f ∈ fields, f.keeping.ordered → f.rules ∈ Rule.repeatable)
    (hperm : ns.Perm ns')
    (hkinds : ∀ kind ∈ Rule.repeatable, ns.filter (·.rule ∈ kind) = ns'.filter (·.rule ∈ kind))
    (h : Gathers fields b ns) : Gathers fields b ns' := by
  refine ⟨fun f hf => ?_, fun n hn => h.told n (hperm.mem_iff.mpr hn)⟩
  have hkept := h.kept f hf
  cases hordered : f.keeping.ordered with
  | true => rwa [← hkinds f.rules (hfields f hf hordered)]
  | false => exact f.keeping.holds_perm hordered (hperm.filter _) hkept

/-- A statement may stand for another one that tells its field the same. -/
theorem Gathers.replace (hrule : m'.rule = m.rule)
    (hsame : ∀ f ∈ fields, m.rule ∈ f.rules →
      ∀ {a a'}, f.keeping.Takes a m a' → f.keeping.Takes a m' a')
    (h : Gathers fields b (front ++ m :: back)) : Gathers fields b (front ++ m' :: back) := by
  refine ⟨fun f hf => ?_, fun n hn => ?_⟩
  · have hkept := h.kept f hf
    by_cases hr : m.rule ∈ f.rules
    · simp only [List.filter_append, List.filter_cons, hrule, hr, decide_true, if_true] at hkept ⊢
      exact f.keeping.holds_replace (hsame f hf hr) hkept
    · simpa [List.filter_append, List.filter_cons, hrule, hr] using hkept
  · rcases List.mem_append.mp hn with hn | hn
    · exact h.told n (by simp [hn])
    · rcases List.mem_cons.mp hn with rfl | hn
      · rw [hrule]
        exact h.told m (by simp)
      · exact h.told n (by simp [hn])

/-- What a block gathers it gathers reordered, too. -/
theorem Gathers.reorders (h : Gathers fields b n.nodes)
    (hfields : ∀ f ∈ fields, f.keeping.ordered → f.rules ∈ Rule.repeatable)
    (hstatements : ∀ f ∈ fields, f.Withstands T) (hr : n.Reorders n')
    (hn : ∀ m ∈ n.nodes, m.Every (fun k => k.isFilled) T) : Gathers fields b n'.nodes := by
  cases hr with
  | @here r s head ns ns' hns hperm hkinds =>
      simp only [Node.nodes, Node.children, Element.nodes_append, Element.nodes_map] at h ⊢
      refine h.perm hfields (hperm.append_left _) fun kind hkind => ?_
      rw [List.filter_append, List.filter_append, hkinds kind hkind]
  | @inside r s front back m m' hm =>
      have hfilled := hn m (by simp [Node.nodes, Node.children])
      simp only [Node.nodes, Node.children, Element.nodes_append, Element.nodes_cons_node] at h ⊢
      exact h.replace hm.rule fun f hf hr => hstatements f hf hm hfilled hr

/-- A block whose statements have no blocks in them. -/
theorem Gathers.reorders_of_plain (h : Gathers fields b n.nodes)
    (hfields : ∀ f ∈ fields,
      (f.keeping.ordered → f.rules ∈ Rule.repeatable) ∧ ∀ r ∈ f.rules, !r.leadsToBlocks)
    (hr : n.Reorders n') (hn : ∀ m ∈ n.nodes, m.Every (fun k => k.isFilled) T) :
    Gathers fields b n'.nodes :=
  h.reorders (fun f hf => (hfields f hf).1) (fun f hf => f.withstands_of_plain (hfields f hf).2) hr hn

end

/-! ## Blocks -/

section

variable {T : Token → Prop} {n n' : Node}

theorem Movement.Reflects.reorders (hn : n.Every (fun m => m.isFilled) T)
    (hrule : n.rule = .npcMovement) (hr : n.Reorders n') {m : Movement} (h : m.Reflects n) :
    m.Reflects n' := by
  obtain ⟨t, l, rest, hcs, hkind, hrooms, hgathers⟩ := h
  have hrow := n.filled_row hn
  obtain ⟨r, s, cs⟩ := n
  obtain rfl : r = .npcMovement := hrule
  obtain rfl : cs = .token t :: .node l :: rest := hcs
  obtain ⟨t', rest', heq, -, -, hrow⟩ := RowOf.token hrow fun _ => rfl
  cases heq
  obtain ⟨l', rest', heq, hlist, -, -⟩ := hrow.child
  cases heq
  have hplain : !l.rule.leadsToBlocks := by
    rw [List.mem_singleton.mp hlist]
    decide
  have hfilled {k : Node} (hk : k ∈ l :: Element.nodes rest) : k.Every (fun m => m.isFilled) T :=
    hn.node hk
  obtain ⟨cs', rfl, htail⟩ := hr.of_token
  have hfixed (k : Node) (hk : Element.node l = .node k) : k.rule ∉ Rule.npcMovement.statementsOf := by
    cases hk
    rw [List.mem_singleton.mp hlist]
    decide
  rcases htail.of_cons hfixed with ⟨rest', hcs', hbehind⟩ | ⟨k, k', hk, hlr, hcs'⟩
  · cases hcs'
    have hoptions := hgathers.reorders_of_plain (by decide) hbehind fun k hk =>
      hfilled (List.mem_cons_of_mem _ hk)
    exact ⟨t, l, rest', rfl, hkind, hrooms, hoptions⟩
  · cases hk
    cases hcs'
    rw [hlr.eq_of_not_leadsToBlocks (hfilled (by simp)) hplain]
    exact ⟨t, l, rest, rfl, hkind, hrooms, hgathers⟩

theorem Consumable.Reflects.reorders (hn : n.Every (fun m => m.isFilled) T) (hr : n.Reorders n')
    {c : Consumable} (h : c.Reflects n) : c.Reflects n' :=
  Gathers.reorders_of_plain h (by decide) hr fun _ hm => hn.node hm

theorem Exit.Reflects.reorders (hn : n.Every (fun m => m.isFilled) T) (hrule : n.rule = .exit)
    (hr : n.Reorders n') {e : Exit} (h : e.Reflects n) : e.Reflects n' := by
  obtain ⟨t, u, rest, hcs, hdirection, hu, hspan, hgathers⟩ := h
  have hrow := n.filled_row hn
  obtain ⟨r, s, cs⟩ := n
  obtain rfl : r = .exit := hrule
  obtain rfl : cs = .token t :: .token u :: rest := hcs
  obtain ⟨t', rest', heq, -, -, hrow⟩ := RowOf.token hrow fun _ => rfl
  cases heq
  obtain ⟨u', rest', heq, -, -, hrow⟩ := RowOf.token hrow fun _ => rfl
  cases heq
  obtain ⟨cs', rfl, hbehind⟩ := hr.of_token
  obtain ⟨rest', hcs', hblock⟩ := hbehind.of_token
  cases hcs'
  refine ⟨t, u, rest', rfl, hdirection, hu, hspan, ?_⟩
  rcases fill_optional_only hrow.1 with rfl | ⟨c, hfits, rfl⟩
  · cases hblock.of_nil
    exact hgathers
  · rcases hblock.of_cons (by simp [Rule.statementsOf]) with ⟨_, heq, hnone⟩ | ⟨b, b', rfl, hb, heq⟩
    · cases heq
      cases hnone.of_nil
      exact hgathers
    · cases heq
      have hrule : b.rule = .exitBlock := by simpa using Node.rule_of_fits hfits
      have hfilled : b.Every (fun m => m.isFilled) T := hn.node (Node.mem_nodes.mpr (by simp [Node.children]))
      have hoptions {k : Node} (hk : k.rule = .exitBlock) : exitOptions [.node k] = k.nodes := by
        simp [exitOptions, leading, Element.node?, Option.filter, hk]
      rw [hoptions hrule] at hgathers
      rw [hoptions (hb.rule.trans hrule)]
      exact hgathers.reorders_of_plain (by decide) hb fun _ hm => hfilled.node hm

theorem Room.Reflects.reorders (hn : n.Every (fun m => m.isFilled) T) (hr : n.Reorders n') {r : Room}
    (h : r.Reflects n) : r.Reflects n' where
  id := hr.namedBy h.id
  span := h.span.trans hr.span.symm
  gathers := by
    refine h.gathers.reorders (T := T) (by decide) (fun f hf => ?_) hr fun _ hm => hn.node hm
    simp only [fields, List.mem_cons, List.not_mem_nil, or_false] at hf
    rcases hf with rfl | rfl | rfl | rfl | rfl
    on_goal 4 =>
      rintro m m' hm hfilled hrule _ _ ⟨e, he, rfl⟩
      exact ⟨e, he.reorders hfilled (List.mem_singleton.mp hrule) hm, rfl⟩
    all_goals exact Field.withstands_of_plain (by decide)

theorem Item.Reflects.reorders (hn : n.Every (fun m => m.isFilled) T) (hr : n.Reorders n') {i : Item}
    (h : i.Reflects n) : i.Reflects n' where
  id := hr.namedBy h.id
  span := h.span.trans hr.span.symm
  gathers := by
    refine h.gathers.reorders (T := T) (by decide) (fun f hf => ?_) hr fun _ hm => hn.node hm
    simp only [fields, List.mem_cons, List.not_mem_nil, or_false] at hf
    rcases hf with rfl | rfl | rfl | rfl | rfl | rfl | rfl | rfl | rfl | rfl
    on_goal 10 =>
      rintro m m' hm hfilled - _ _ ⟨c, hc, hempty, rfl⟩
      exact ⟨c, hc.reorders hfilled hm, hempty, rfl⟩
    all_goals exact Field.withstands_of_plain (by decide)

theorem Npc.Reflects.reorders (hn : n.Every (fun m => m.isFilled) T) (hr : n.Reorders n') {c : Npc}
    (h : c.Reflects n) : c.Reflects n' where
  id := hr.namedBy h.id
  span := h.span.trans hr.span.symm
  nodes := by
    have hlength := hr.length_nodes
    intro hnil
    rw [hnil] at hlength
    exact h.nodes (List.length_eq_zero_iff.mp hlength.symm)
  gathers := by
    refine h.gathers.reorders (T := T) (by decide) (fun f hf => ?_) hr fun _ hm => hn.node hm
    simp only [fields, List.mem_cons, List.not_mem_nil, or_false] at hf
    rcases hf with rfl | rfl | rfl | rfl | rfl | rfl
    on_goal 5 =>
      rintro m m' hm hfilled hrule _ _ ⟨v, hv, hempty, rfl⟩
      exact ⟨v, hv.reorders hfilled (List.mem_singleton.mp hrule) hm, hempty, rfl⟩
    all_goals exact Field.withstands_of_plain (by decide)

theorem Goal.Reflects.reorders (hn : n.Every (fun m => m.isFilled) T) (hr : n.Reorders n') {g : Goal}
    (h : g.Reflects n) : g.Reflects n' where
  id := hr.namedBy h.id
  span := h.span.trans hr.span.symm
  gathers := h.gathers.reorders_of_plain (by decide) hr fun _ hm => hn.node hm

theorem ItemPatch.Reflects.reorders (hn : n.Every (fun m => m.isFilled) T) (hr : n.Reorders n')
    {change : Id .item × ItemPatch} (h : ItemPatch.Reflects change n) :
    ItemPatch.Reflects change n' where
  item := hr.namedBy h.item
  gathers := h.gathers.reorders_of_plain (by decide) hr fun _ hm => hn.node hm

end

/-! ## Reading past blocks -/

section

variable {T : Token → Prop} {n n' : Node} {cs cs' : List Element}

/-- The same construct, or one with a block in it reordered. -/
def Node.Like (T : Token → Prop) (n n' : Node) : Prop :=
  n' = n ∨ n.Every (fun m => m.isFilled) T ∧ n.Reorders n'

def Element.Like (T : Token → Prop) : Element → Element → Prop
  | .token t, c => c = .token t
  | .node n, c => ∃ n', c = .node n' ∧ n.Like T n'

namespace Node.Like

theorem rule (h : n.Like T n') : n'.rule = n.rule := by
  rcases h with rfl | ⟨-, h⟩
  · rfl
  · exact h.rule

theorem eq (h : n.Like T n') (hr : !n.rule.leadsToBlocks) : n' = n := by
  rcases h with rfl | ⟨hn, h⟩
  · rfl
  · exact h.eq_of_not_leadsToBlocks hn hr

end Node.Like

theorem Element.Like.refl (c : Element) : c.Like T c := by
  cases c with
  | token t => rfl
  | node n => exact ⟨n, rfl, .inl rfl⟩

/-- Where a construct holds no statements of its own, its parts stay in their places. -/
theorem Node.Reorders.parts (h : n.Reorders n') (hn : n.Every (fun m => m.isFilled) T)
    (hr : n.rule.statementsOf = []) : List.Forall₂ (Element.Like T) n.children n'.children := by
  cases h with
  | @here r s head ns ns' hns hperm hkinds =>
      obtain rfl : ns = [] := List.eq_nil_iff_forall_not_mem.mpr fun n hn => by
        have hmem := hns n hn
        rw [show r.statementsOf = [] from hr] at hmem
        cases hmem
      rw [List.nil_perm.mp hperm]
      exact List.forall₂_same.mpr fun c _ => .refl c
  | @inside r s front back m m' hm =>
      have hfilled := hn.node (m := m) (mem_nodes.mpr (by simp [children]))
      refine List.rel_append (List.forall₂_same.mpr fun c _ => .refl c) (.cons ?_ ?_)
      · exact ⟨m', rfl, .inr ⟨hfilled, hm⟩⟩
      · exact List.forall₂_same.mpr fun c _ => .refl c

theorem forall₂_nodes (h : List.Forall₂ (Element.Like T) cs cs') :
    List.Forall₂ (Node.Like T) (Element.nodes cs) (Element.nodes cs') := by
  induction h with
  | nil => exact .nil
  | @cons c c' cs cs' hc _ ih =>
      cases c with
      | token t =>
          obtain rfl := hc
          exact ih
      | node n =>
          obtain ⟨n', rfl, hn⟩ := hc
          exact .cons hn ih

end

namespace Shape

variable {T : Token → Prop} {α β : Type}

/-- What is read of some parts is also read where blocks in them are reordered, up to `A`. -/
def Keeps (T : Token → Prop) (r r' : Reading α) (A : α → α → Prop) : Prop :=
  ∀ span cs cs' a rest, List.Forall₂ (Element.Like T) cs cs' → r span cs = .ok (a, rest) →
    ∃ a' rest', r' span cs' = .ok (a', rest') ∧ A a a' ∧ List.Forall₂ (Element.Like T) rest rest'

namespace Keeps

variable {r r' : Reading α} {A : α → α → Prop} {B : β → β → Prop} {what : String}

theorem done {a a' : α} (h : A a a') : Keeps T (pure a) (pure a') A := by
  intro span cs cs' b rest hcs hread
  obtain ⟨rfl, rfl⟩ := reads_done.mp hread
  exact ⟨a', cs', reads_done.mpr ⟨rfl, rfl⟩, h, hcs⟩

theorem bind {f f' : α → Reading β} (hr : Keeps T r r' A)
    (hf : ∀ a a', A a a' → Keeps T (f a) (f' a') B) : Keeps T (r >>= f) (r' >>= f') B := by
  intro span cs cs' b rest hcs hread
  obtain ⟨a, mid, ha, hb⟩ := reads_bind.mp hread
  obtain ⟨a', mid', ha', hA, hmid⟩ := hr _ _ _ _ _ hcs ha
  obtain ⟨b', rest', hb', hB, hrest⟩ := hf a a' hA _ _ _ _ _ hmid hb
  exact ⟨b', rest', reads_bind.mpr ⟨a', mid', ha', hb'⟩, hB, hrest⟩

/-- What reads the same from both. -/
theorem same {f f' : α → Reading β} (hr : Keeps T r r' Eq) (hf : ∀ a, Keeps T (f a) (f' a) B) :
    Keeps T (r >>= f) (r' >>= f') B :=
  hr.bind fun a _ ha => ha ▸ hf a

theorem lift {x x' : Except ShapeFault α} (h : ∀ a, x = .ok a → x' = .ok a) :
    Keeps T (liftM x) (liftM x') Eq := by
  intro span cs cs' a rest hcs hread
  obtain ⟨hx, rfl⟩ := reads_lift.mp hread
  exact ⟨a, cs', reads_lift.mpr ⟨h a hx, rfl⟩, rfl, hcs⟩

theorem fail {fault : ShapeFault} : Keeps T (throw fault) r' A :=
  fun _ _ _ _ _ _ h => (reads_fail.mp h).elim

theorem token : Keeps T (token what) (token what) Eq := by
  intro span cs cs' t rest hcs hread
  obtain rfl := reads_token.mp hread
  obtain ⟨c', rest', hc, hrest, rfl⟩ := List.forall₂_cons_left_iff.mp hcs
  obtain rfl := hc
  exact ⟨t, rest', reads_token.mpr rfl, rfl, hrest⟩

theorem child : Keeps T (child what) (child what) (Node.Like T) := by
  intro span cs cs' n rest hcs hread
  obtain rfl := reads_child.mp hread
  obtain ⟨c', rest', hc, hrest, rfl⟩ := List.forall₂_cons_left_iff.mp hcs
  obtain ⟨n', rfl, hn⟩ := hc
  exact ⟨n', rest', reads_child.mpr rfl, hn, hrest⟩

/-- A construct of a rule without blocks below it. -/
theorem childOf? {rules : List Rule} (hrules : ∀ r ∈ rules, !r.leadsToBlocks) :
    Keeps T (childOf? rules) (childOf? rules) Eq := by
  intro span cs cs' n? rest hcs hread
  obtain ⟨rfl, rfl⟩ := reads_childOf?.mp hread
  have hsame : leading rules cs' = leading rules cs := by
    cases hcs with
    | nil => rfl
    | @cons c c' cs cs' hc _ =>
        cases c with
        | token t =>
            obtain rfl := hc
            rfl
        | node n =>
            obtain ⟨n', rfl, hn⟩ := hc
            by_cases hr : n.rule ∈ rules
            · rw [hn.eq (hrules _ hr)]
              rfl
            · simp [leading, Element.node?, Option.filter, hn.rule, hr]
  refine ⟨leading rules cs, _, reads_childOf?.mpr ⟨hsame, rfl⟩, rfl, ?_⟩
  exact List.forall₂_drop _ hcs

theorem childrenOf {rules : List Rule} (hrules : ∀ r ∈ rules, !r.leadsToBlocks) :
    Keeps T (childrenOf rules) (childrenOf rules) Eq := by
  intro span cs cs' ns rest hcs hread
  have hrun (cs : List Element) : Shape.childrenOf rules span cs =
      .ok (Element.nodes (cs.takeWhile fun c => c.node?.any fun n => rules.contains n.rule),
        cs.dropWhile fun c => c.node?.any fun n => rules.contains n.rule) := rfl
  rw [hrun] at hread
  cases hread
  suffices h : Element.nodes (cs'.takeWhile fun c => c.node?.any fun n => rules.contains n.rule) =
        Element.nodes (cs.takeWhile fun c => c.node?.any fun n => rules.contains n.rule) ∧
      List.Forall₂ (Element.Like T)
        (cs.dropWhile fun c => c.node?.any fun n => rules.contains n.rule)
        (cs'.dropWhile fun c => c.node?.any fun n => rules.contains n.rule) by
    exact ⟨_, _, hrun cs', h.1.symm, h.2⟩
  clear hrun
  induction hcs with
  | nil => exact ⟨rfl, .nil⟩
  | @cons c c' cs cs' hc hcs ih =>
      cases c with
      | token t =>
          obtain rfl := hc
          exact ⟨rfl, .cons rfl hcs⟩
      | node n =>
          obtain ⟨n', rfl, hn⟩ := hc
          by_cases hr : n.rule ∈ rules
          · rw [hn.eq (hrules _ hr)]
            simpa [List.takeWhile_cons, List.dropWhile_cons, Element.node?, hr] using ih
          · simpa [List.takeWhile_cons, List.dropWhile_cons, Element.node?, hn.rule, hr] using
              ⟨⟨n', rfl, hn⟩, hcs⟩

theorem string : Keeps T (string what) (string what) Eq :=
  token.same fun _ => lift fun _ h => h

theorem count : Keeps T (count what) (count what) Eq := by
  have hnumber : Keeps T (number what) (number what) Eq := by
    refine token.same fun t => ?_
    split
    · exact done rfl
    · exact fail
  exact hnumber.same fun _ => lift fun _ h => h

theorem anchor : Keeps T anchor anchor Eq := by
  have hword : Keeps T (word "schedule anchor") (word "schedule anchor") Eq :=
    token.same fun _ => done rfl
  exact hword.same fun _ => done rfl

theorem stringIn? {rule : Rule} (hrule : !rule.leadsToBlocks) :
    Keeps T (stringIn? rule what) (stringIn? rule what) Eq := by
  refine (childOf? (by simpa using hrule)).same fun n? => ?_
  cases n? with
  | none => exact done rfl
  | some n => exact (lift fun _ h => h).same fun _ => done rfl

theorem plainParts : Keeps T plainParts plainParts fun p p' =>
    ∃ b, p' = (p.1, p.2.1, p.2.2.1, b) ∧ p.2.2.2.Like T b := by
  refine anchor.same fun _ => count.same fun _ => (stringIn? (by decide)).same fun _ => ?_
  exact child.bind fun b b' hb => done ⟨b', rfl, hb⟩

theorem scheduleParts : Keeps T scheduleParts scheduleParts fun p p' =>
    ∃ g b, p' = { p with guard := g, body := b } ∧ p.guard.Like T g ∧ p.body.Like T b := by
  refine anchor.same fun _ => count.same fun _ => child.bind fun g g' hg => ?_
  have hend {retry : Option RetryPolicy} {anchor : Anchor} {turns : UInt32} :
      Keeps T (do let note ← Shape.stringIn? .note "note"
                  let body ← Shape.child "schedule body"
                  return ({ anchor, turns, guard := g, retry, note, body } : ScheduleParts))
        (do let note ← Shape.stringIn? .note "note"
            let body ← Shape.child "schedule body"
            return { anchor, turns, guard := g', retry, note, body })
        fun p p' => ∃ g b, p' = { p with guard := g, body := b } ∧
          p.guard.Like T g ∧ p.body.Like T b :=
    (stringIn? (by decide)).same fun _ => child.bind fun b b' hb => done ⟨g', b', rfl, hg, hb⟩
  refine (childOf? (by decide)).same fun retry? => ?_
  cases retry? with
  | none => exact hend
  | some r => exact (lift fun _ h => h).same fun _ => hend

/-- An event holds no blocks. -/
theorem plain_of_event {n : Node} {e : Event} (h : event n = .ok e) : !n.rule.leadsToBlocks := by
  unfold event at h
  split at h <;> rename_i hr
  case h_17 =>
    obtain ⟨rest, hread⟩ := parts_eq_ok.mp h
    exact (reads_fail.mp hread).elim
  all_goals
    rw [hr]
    decide

theorem triggerParts : Keeps T triggerParts triggerParts fun p p' =>
    ∃ b, p' = (p.1, p.2.1, p.2.2.1, p.2.2.2.1, b) ∧ p.2.2.2.2.Like T b := by
  refine string.same fun _ => (childrenOf (by decide)).same fun _ => ?_
  refine (lift fun _ h => h).same fun _ => child.bind fun e e' he => ?_
  have hevent : Keeps T (liftM (event e)) (liftM (event e')) Eq :=
    lift fun _ h => by rwa [he.eq (plain_of_event h)]
  exact hevent.same fun _ => child.bind fun b b' hb => done ⟨b', rfl, hb⟩

end Keeps

/-! ## Building from reordered parts -/

section

variable {n n' : Node} {guard : Node → Except ShapeFault Condition}
  {body : Node → Collecting (List Statement)} {act : Node → Collecting Action}

/-- What is read of the parts of a construct is read of them reordered, too. -/
theorem Keeps.parts {r : Reading α} {A : α → α → Prop} (hr : Keeps T r r A) (h : n.Reorders n')
    (hparts : List.Forall₂ (Element.Like T) n.children n'.children) {a : α} (ha : n.parts r = .ok a) :
    ∃ a', n'.parts r = .ok a' ∧ A a a' := by
  obtain ⟨rest, hread⟩ := parts_eq_ok.mp ha
  obtain ⟨a', rest', hread', hA, -⟩ := hr _ _ _ _ _ hparts hread
  exact ⟨a', parts_eq_ok.mpr ⟨rest', by rwa [h.span]⟩, hA⟩

/-- Builders that build the same of constructs of some rules reordered. -/
def BuildsSame (T : Token → Prop) (rules : List Rule) (build : Node → Collecting α) : Prop :=
  ∀ k k' : Node, k.Every (fun m => m.isFilled) T → k.rule ∈ rules → k.Reorders k' →
    ∀ a, Makes (build k) a → Makes (build k') a

theorem BuildsSame.like {rules : List Rule} {build : Node → Collecting α}
    (h : BuildsSame T rules build) (hr : n.rule ∈ rules) (hlike : n.Like T n') {a : α}
    (ha : Makes (build n) a) : Makes (build n') a := by
  rcases hlike with rfl | ⟨hn, hreorders⟩
  · exact ha
  · exact h n n' hn hr hreorders a ha

/-- Many constructs, in any of which blocks are reordered. -/
theorem BuildsSame.forall₂ {rules : List Rule} {build : Node → Collecting α}
    (h : BuildsSame T rules build) {ns ns' : List Node} (hrules : ∀ n ∈ ns, n.rule ∈ rules)
    (hlike : List.Forall₂ (Node.Like T) ns ns') {as : List α}
    (has : List.Forall₂ (fun n a => Makes (build n) a) ns as) :
    List.Forall₂ (fun n a => Makes (build n) a) ns' as := by
  induction hlike generalizing as with
  | nil => exact has
  | @cons n n' ns ns' hn _ ih =>
      obtain ⟨a, as, ha, hmore, rfl⟩ := List.forall₂_cons_left_iff.mp has
      exact .cons (h.like (hrules n (by simp)) hn ha) (ih (fun m hm => hrules m (by simp [hm])) hmore)

theorem deed_buildsSame (hact : BuildsSame T Rule.actions act) :
    BuildsSame T [.doStmt] (deed act) := by
  intro n n' hn hr h d hd
  have hr := List.mem_singleton.mp hr
  have hparts := h.parts hn (by rw [hr]; rfl)
  obtain ⟨k, rest, hcs, a, ha, rfl⟩ := makes_deed.mp hd
  have hrow := n.filled_row hn
  rw [hr, hcs] at hrow
  obtain ⟨_, _, heq, hrule, -⟩ := hrow.child
  cases heq
  rw [hcs] at hparts
  obtain ⟨c', rest', ⟨k', rfl, hk⟩, -, hcs'⟩ := List.forall₂_cons_left_iff.mp hparts
  exact makes_deed.mpr ⟨k', rest', hcs', a, hact.like hrule hk ha, by rw [h.span]⟩

theorem branch_buildsSame (hblind : ∀ k, Blind (act k)) (hact : BuildsSame T Rule.actions act) :
    BuildsSame T [.condBlock] (branch guard act) := by
  intro n n' hn hr h s hs
  have hr := List.mem_singleton.mp hr
  have hparts := h.parts hn (by rw [hr]; rfl)
  obtain ⟨c, rest, hcs, hne, ds, hds, q, hq, rfl⟩ := (makes_branch hblind).mp hs
  have hrow := n.filled_row hn
  rw [hr, hcs] at hrow
  obtain ⟨_, _, heq, hrule, -, hrest⟩ := hrow.child
  cases heq
  rw [hcs] at hparts
  obtain ⟨_, rest', ⟨c', rfl, hc⟩, hlike, hcs'⟩ := List.forall₂_cons_left_iff.mp hparts
  -- The condition holds no blocks, so that it is the same.
  have hplain : ∀ r ∈ Rule.conditions, !r.leadsToBlocks := by decide
  have hnodes := forall₂_nodes hlike
  have hdeeds := (deed_buildsSame hact).forall₂ (fun k hk => (hrest.nodes k hk).1) hnodes hds
  refine (makes_branch hblind).mpr ⟨c', rest', hcs', ?_, ds, hdeeds, q, ?_, by rw [h.span]⟩
  · intro hnil
    rw [hnil] at hnodes
    exact hne (List.forall₂_nil_right_iff.mp hnodes)
  · rwa [hc.eq (hplain _ hrule)]

theorem statement_buildsSame (hblind : ∀ k, Blind (act k)) (hact : BuildsSame T Rule.actions act) :
    BuildsSame T Rule.statements (statement guard act) := by
  intro n n' hn hr h s hs
  unfold statement at hs ⊢
  rw [h.rule]
  split at hs <;> rename_i hrule
  · rw [makes_bind fun _ => Blind.done _] at hs ⊢
    obtain ⟨d, hd, hs⟩ := hs
    exact ⟨d, deed_buildsSame hact n n' hn (by simp [hrule]) h d hd, hs⟩
  · exact branch_buildsSame hblind hact n n' hn (by simp [hrule]) h s hs
  · exact (makes_fail.mp hs).elim

theorem statements_buildsSame (hblind : ∀ k, Blind (act k)) (hact : BuildsSame T Rule.actions act) :
    BuildsSame T [.triggerBlock] (statements guard act) := by
  intro n n' hn hr h ss hss
  have hr := List.mem_singleton.mp hr
  have hnodes := forall₂_nodes (h.parts hn (by rw [hr]; rfl))
  have hrow := n.filled_row hn
  rw [hr] at hrow
  rw [makes_statements hblind] at hss ⊢
  obtain ⟨hne, hss⟩ := hss
  have hall := (statement_buildsSame hblind hact).forall₂ (fun k hk => (hrow.nodes k hk).1) hnodes hss
  refine ⟨fun hnil => ?_, hall⟩
  rw [show Element.nodes n'.children = [] from hnil] at hnodes
  exact hne (List.forall₂_nil_right_iff.mp hnodes)

theorem actionOver_buildsSame (hbody : BuildsSame T [.triggerBlock] body) :
    BuildsSame T Rule.actions (actionOver guard body) := by
  intro n n' hn hr h a ha
  have hrow := n.filled_row hn
  unfold actionOver at ha ⊢
  rw [h.rule]
  split at ha <;> rename_i hrule
  · rw [makes_bind fun _ => Blind.done _] at ha ⊢
    obtain ⟨e, he, ha⟩ := ha
    obtain ⟨change, hchange, rfl⟩ := makes_modifyItem.mp he
    exact ⟨_, makes_modifyItem.mpr ⟨change, hchange.reorders hn h, rfl⟩, ha⟩
  · obtain ⟨p, hp, ss, hss, rfl⟩ := makes_plainSchedule.mp ha
    rw [hrule] at hrow
    obtain ⟨hblock, -⟩ := (hrow.parts ReadsHead.any.plain).ok hp
    obtain ⟨_, hp', b, rfl, hb⟩ := Keeps.plainParts.parts h (h.parts hn (by rw [hrule]; rfl)) hp
    exact makes_plainSchedule.mpr ⟨_, hp', ss, hbody.like (by simp [hblock]) hb hss, rfl⟩
  · obtain ⟨p, hp, q, hq, ss, hss, rfl⟩ := makes_guardedSchedule.mp ha
    rw [hrule] at hrow
    obtain ⟨⟨hguard, -⟩, hblock, -⟩ := (hrow.parts ReadsHead.any.guarded).ok hp
    obtain ⟨_, hp', g, b, rfl, hg, hb⟩ :=
      Keeps.scheduleParts.parts h (h.parts hn (by rw [hrule]; rfl)) hp
    have hplain : ∀ r ∈ Rule.conditions, !r.leadsToBlocks := by decide
    refine makes_guardedSchedule.mpr ⟨_, hp', q, ?_, ss, hbody.like (by simp [hblock]) hb hss, rfl⟩
    rwa [hg.eq (hplain _ hguard)]
  · have hplain : ∀ r ∈ Rule.effects, !r.leadsToBlocks := by decide
    have heffect : n.rule ∈ Rule.effects := by simp_all [Rule.actions]
    rwa [h.eq_of_not_leadsToBlocks hn (hplain _ heffect)]

theorem action_buildsSame {limit levels : Nat} :
    BuildsSame T Rule.actions (action limit levels) := by
  induction levels with
  | zero => exact actionOver_buildsSame fun _ _ _ _ _ _ h => (makes_fail.mp h).elim
  | succ levels ih =>
      exact actionOver_buildsSame (statements_buildsSame (blind_action limit levels) ih)

theorem trigger_buildsSame {limit : Nat} : BuildsSame T [.triggerDef] (trigger limit) := by
  intro n n' hn hr h t ht
  have hr := List.mem_singleton.mp hr
  obtain ⟨name, modifiers, notes, e, block, hp, ss, hss, rfl⟩ := makes_trigger.mp ht
  obtain ⟨hblock, -⟩ := triggerParts_block hn hr hp
  obtain ⟨_, hp', b, rfl, hb⟩ := Keeps.triggerParts.parts h (h.parts hn (by rw [hr]; rfl)) hp
  have hsame : BuildsSame T [.triggerBlock] (statements (condition limit limit) (action limit limit)) :=
    statements_buildsSame (blind_action limit limit) action_buildsSame
  exact makes_trigger.mpr ⟨_, _, _, _, _, hp', ss, hsame.like (by simp [hblock]) hb hss,
    by rw [h.span]⟩

/-- Definitions are built into the same where statements in them are reordered. -/
theorem definition_buildsSame {limit : Nat} :
    BuildsSame T Rule.definitions (definition limit) := by
  intro n n' hn hr h d hd
  unfold definition at hd ⊢
  rw [h.rule]
  split at hd <;> rename_i hrule
  case h_8 => exact (makes_fail.mp hd).elim
  case h_1 | h_6 =>
    rwa [h.eq_of_not_leadsToBlocks hn (by rw [hrule]; decide)]
  all_goals
    rw [makes_bind fun _ => Blind.done _] at hd ⊢
    obtain ⟨x, hx, hd⟩ := hd
    refine ⟨x, ?_, hd⟩
  · exact Room.makes_iff.mpr ((Room.makes_iff.mp hx).reorders hn h)
  · exact Item.makes_iff.mpr ((Item.makes_iff.mp hx).reorders hn h)
  · exact Npc.makes_iff.mpr ((Npc.makes_iff.mp hx).reorders hn h)
  · exact trigger_buildsSame n n' hn (by simp [hrule]) h x hx
  · exact Goal.makes_iff.mpr ((Goal.makes_iff.mp hx).reorders hn h)

end

end Shape

namespace Built

variable {source : List Char} {tokens : List Token} {settings : Settings} {limit : Nat}
  {n n' : Node} {d : Definition}

theorem ofNode_eq_iff : ofNode limit n = { definitions := [d] } ↔ Makes (definition limit n) d := by
  unfold ofNode Makes
  split
  · rename_i hrun
    simp [hrun]
  · rename_i hne hrun
    simpa [hrun] using fun _ => hne
  · rename_i hrun
    simp [hrun]

/-- In a definition that is built without a fault, the statements of a block may be reordered: it is
still built without a fault, and into the same definition. -/
theorem ofNode_reorders (h : Lexer.tokens source = .ok tokens)
    (hn : n ∈ (Tree.ofTokens settings tokens).tree.root.nodes) (hr : n.Reorders n')
    (hd : ofNode limit n = { definitions := [d] }) : ofNode limit n' = { definitions := [d] } := by
  set tree := (Tree.ofTokens settings tokens).tree
  obtain ⟨hrule, hsound⟩ := (Tree.ofTokens_grown settings h).root
  have hfilled : n.Every (fun m => m.isFilled) (· ∈ tokens) :=
    (Node.Every.node hsound hn).mono (fun _ hk => hk.filled) fun _ ht => ht
  have hrow : RowOf (fun _ => True) tree.root.rule.slots tree.root.children :=
    ⟨(Node.Every.here hsound).filled, fun _ _ => trivial⟩
  rw [List.mem_singleton.mp hrule] at hrow
  rw [ofNode_eq_iff] at hd ⊢
  exact definition_buildsSame n n' hfilled (hrow.nodes n hn).1 hr d hd

theorem exists_of_faults_eq_nil (h : (ofNode limit n).faults = []) :
    ∃ d, ofNode limit n = { definitions := [d] } := by
  unfold ofNode at h ⊢
  split <;> simp_all

/-- An item that can be carried. -/
def lamp : String :=
  "item lamp \x7b name \"Lamp\" portable true \x7d"

/-- Whether something is an item of which first the name is told and then if it can be carried. -/
def isNamedThenPortable : Node → Bool
  | .mk .itemDef _ [.token _, .node (.mk .itemName _ _), .node (.mk .itemPortable _ _)] => true
  | _ => false

theorem ofNode_reorders_lamp :
    Lexer.tokens lamp.toList = .ok (Lexer.tokensOf lamp) ∧
      ∃ n ∈ (Tree.ofTokens {} (Lexer.tokensOf lamp)).tree.root.nodes, ∃ n' d,
        n.Reorders n' ∧ n.nodes.length = 2 ∧ n'.nodes = n.nodes.reverse ∧
          ofNode 32 n = { definitions := [d] } ∧ ofNode 32 n' = { definitions := [d] } := by
  have h : Lexer.tokens lamp.toList = .ok (Lexer.tokensOf lamp) := by decide +kernel
  have hitem : ∃ n ∈ (Tree.ofTokens {} (Lexer.tokensOf lamp)).tree.root.nodes,
      isNamedThenPortable n ∧ (ofNode 32 n).faults = [] := by decide +kernel
  obtain ⟨n, hn, hshape, hfaults⟩ := hitem
  obtain ⟨d, hd⟩ := exists_of_faults_eq_nil hfaults
  unfold isNamedThenPortable at hshape
  split at hshape
  · rename_i s t sa as sb bs
    have hkinds : ∀ kind ∈ Rule.repeatable, Rule.itemName ∉ kind ∧ Rule.itemPortable ∉ kind := by
      decide
    have hr : (Node.mk .itemDef s
        ([.token t] ++ [.mk .itemName sa as, .mk .itemPortable sb bs].map .node)).Reorders
        (.mk .itemDef s ([.token t] ++ [.mk .itemPortable sb bs, .mk .itemName sa as].map .node)) := by
      refine .here (by simp [Node.rule, Rule.statementsOf, Rule.itemStatements]) (.swap _ _ []) ?_
      intro kind hkind
      simp [Node.rule, hkinds kind hkind]
    exact ⟨h, _, hn, _, d, hr, rfl, rfl, hd, ofNode_reorders h hn hr hd⟩
  · cases hshape

end Built

end Storyworld
