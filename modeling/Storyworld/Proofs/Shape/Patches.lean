import Storyworld.Proofs.Shape.Ensures
import Storyworld.Proofs.Shape.Levels
import Storyworld.Proofs.Shape.Reflects

namespace Storyworld

/-! Kept definitions, and the statements that they reflect. What a trigger does to items is told by
its statements wherever they stand in it, in their order. -/

open Shape

/-! ## What is built of statements -/

namespace Shape

variable {n : Node} {guard : Node → Except ShapeFault Condition}
  {body : Node → Collecting (List Statement)} {act : Node → Collecting Action}

theorem makes_deed {d : Deed} : Makes (deed act n) d ↔
    ∃ k rest, n.children = .node k :: rest ∧ ∃ a, Makes (act k) a ∧ .mk a n.span = d := by
  unfold deed
  rw [makes_given]
  simp only [parts_child, makes_bind fun _ => Blind.done _, makes_done]
  exact exists_congr fun k => exists_and_right.symm

theorem makes_branch (hact : ∀ k, Blind (act k)) {s : Statement} : Makes (branch guard act n) s ↔
    ∃ c rest, n.children = .node c :: rest ∧ Element.nodes rest ≠ [] ∧
      ∃ ds, List.Forall₂ (fun k d => Makes (deed act k) d) (Element.nodes rest) ds ∧
        ∃ q, guard c = .ok q ∧ .branch q ds n.span = s := by
  unfold branch
  simp only [makes_given, Prod.exists, head_eq_ok, reads_child]
  refine exists_congr fun c => exists_congr fun rest => and_congr_right fun _ => ?_
  rw [makes_bind fun _ => blind_branchEnd]
  simp only [makes_given, makes_keepAll (blind_deed hact), makes_unless, makes_done, List.isEmpty_iff]
  constructor
  · rintro ⟨ds, hds, q, hq, hne, hs⟩
    exact ⟨hne, ds, hds, q, hq, hs⟩
  · rintro ⟨hne, ds, hds, q, hq, hs⟩
    exact ⟨ds, hds, q, hq, hne, hs⟩

theorem makes_statements (hact : ∀ k, Blind (act k)) {ss : List Statement} :
    Makes (statements guard act n) ss ↔
      n.nodes ≠ [] ∧ List.Forall₂ (fun k s => Makes (statement guard act k) s) n.nodes ss := by
  unfold statements
  rw [makes_unless, makes_keepAll (blind_statement hact), List.isEmpty_iff]

/-- What is read of a schedule without a guard. -/
def plainParts : Reading (Anchor × UInt32 × Option String × Node) := do
  let anchor ← anchor
  let turns ← count "schedule turns"
  let note ← stringIn? .note "note"
  let bodyNode ← child "schedule body"
  return (anchor, turns, note, bodyNode)

theorem makes_plainSchedule {a : Action} : Makes (plainSchedule body n) a ↔
    ∃ p, n.parts plainParts = .ok p ∧
      ∃ ss, Makes (body p.2.2.2) ss ∧ .schedule p.1 p.2.1 none p.2.2.1 ss = a := by
  refine makes_given.trans (exists_congr fun p => and_congr_right fun _ => ?_)
  rw [makes_bind fun _ => Blind.done _]
  simp only [makes_done]

theorem makes_guardedSchedule {a : Action} : Makes (guardedSchedule guard body n) a ↔
    ∃ p, n.parts scheduleParts = .ok p ∧ ∃ q, guard p.guard = .ok q ∧
      ∃ ss, Makes (body p.body) ss ∧ .schedule p.anchor p.turns (some ⟨q, p.retry⟩) p.note ss = a := by
  refine makes_given.trans (exists_congr fun p => and_congr_right fun _ => ?_)
  cases hguard : guard p.guard with
  | error fault =>
      simp [makes_bind fun _ => Blind.fail _, makes_fail]
  | ok q =>
      simp only [Except.ok.injEq, exists_eq_left', makes_bind fun _ => Blind.done _, makes_done]

/-- What is read of a trigger. -/
def triggerParts : Reading (String × List Node × List String × Event × Node) := do
  let name ← string "trigger name"
  let modifiers ← childrenOf [.onlyOnce, .note]
  let notes ← notes modifiers
  let event ← event (← child "trigger event")
  let block ← child "trigger block"
  return (name, modifiers, notes, event, block)

theorem makes_trigger {limit : Nat} {t : Trigger} : Makes (trigger limit n) t ↔
    ∃ name modifiers notes event block,
      n.parts triggerParts = .ok (name, modifiers, notes, event, block) ∧
        ∃ ss, Makes (statements (condition limit limit) (action limit limit) block) ss ∧
          ⟨name, modifiers.any (·.rule = .onlyOnce), notes, event, ss, n.span⟩ = t := by
  refine makes_given.trans ?_
  simp only [Prod.exists, makes_bind fun _ => Blind.done _, makes_done]
  rfl

end Shape

/-! ## Patches in a tree -/

/-- Whether there may be blocks of statements about something in a construct of this rule. -/
def Rule.leadsToBlocks (r : Rule) : Bool :=
  ([sourceFile, roomDef, itemDef, npcDef, goalDef, triggerDef, exit, exitBlock, consumable,
    npcMovement, triggerBlock, actModifyItem] ++ statements ++ schedules).contains r

theorem Rule.closed_not_leadsToBlocks : Closed fun r => !r.leadsToBlocks := by
  intro r
  cases r <;> decide

namespace Node

variable {T : Token → Prop} {n body : Node} {cs : List Element}

/-- The statements in a construct that change an item, in their order. -/
def patches (n : Node) : List Node :=
  n.family.filter (·.rule = .actModifyItem)

theorem patches_familyIn :
    (familyIn cs).filter (·.rule = .actModifyItem) = (Element.nodes cs).flatMap patches := by
  induction cs with
  | nil => rfl
  | cons c cs ih =>
      rw [familyIn, List.filter_append, ih]
      cases c <;> rfl

theorem patches_of_ne (hr : n.rule ≠ .actModifyItem) : n.patches = n.nodes.flatMap patches := by
  obtain ⟨r, s, cs⟩ := n
  rw [patches, family, List.filter_cons_of_neg (by simpa using hr), patches_familyIn]
  rfl

theorem patches_of_not_leadsToBlocks (hn : n.Every (fun m => m.isFilled) T)
    (hr : !n.rule.leadsToBlocks) : n.patches = [] := by
  refine List.filter_eq_nil_iff.mpr fun m hm hpatch => ?_
  have hm := rule_of_mem_family Rule.closed_not_leadsToBlocks hn hr hm
  rw [of_decide_eq_true hpatch] at hm
  exact absurd hm (by decide)

/-- There are no statements that change an item inside one. -/
theorem patches_of_modifyItem (hn : n.Every (fun m => m.isFilled) T)
    (hr : n.rule = .actModifyItem) : n.patches = [n] := by
  have hquiet : n.nodes.flatMap patches = [] := by
    have hrow := n.filled_row hn
    rw [hr] at hrow
    obtain ⟨t, rest, hcs, -, -, hrest⟩ := RowOf.token hrow fun _ => rfl
    refine List.flatMap_eq_nil_iff.mpr fun k hk => ?_
    have hk' : k ∈ Element.nodes rest := by rwa [nodes, hcs] at hk
    have hpatch : ∀ r ∈ Rule.patches, !r.leadsToBlocks := by decide
    exact patches_of_not_leadsToBlocks (hn.node hk) (hpatch _ (hrest.nodes k hk').1)
  obtain ⟨r, s, cs⟩ := n
  rw [patches, family, List.filter_cons_of_pos (by simpa using hr), patches_familyIn]
  exact congrArg (_ :: ·) hquiet

/-- The statements of a trigger or a schedule that change an item are in its body, which is its last
part. -/
theorem patches_of_body (hn : n.Every (fun m => m.isFilled) T)
    (hr : n.rule ∈ .triggerDef :: Rule.schedules) (hbody : .node body ∈ n.children)
    (hrule : body.rule = .triggerBlock) : n.patches = body.patches := by
  obtain ⟨front, last, hcs, -, hfront⟩ :=
    exists_last_body (q := fun r => !r.leadsToBlocks) hn.here hr (by decide)
  have hlast : body = last := by
    rw [hcs, List.mem_append] at hbody
    rcases hbody with hbody | hbody
    · have hquiet := hfront body (Element.mem_nodes.mpr hbody)
      rw [hrule] at hquiet
      exact absurd hquiet (by decide)
    · simpa using hbody
  have hnodes : n.nodes = Element.nodes front ++ [last] := by
    rw [nodes, hcs, Element.nodes_append]
    rfl
  have hquiet : (Element.nodes front).flatMap patches = [] :=
    List.flatMap_eq_nil_iff.mpr fun k hk =>
      patches_of_not_leadsToBlocks (hn.node (by simp [hnodes, hk])) (hfront k hk)
  have hne : n.rule ≠ .actModifyItem := by
    intro hmodify
    rw [hmodify] at hr
    exact absurd hr (by decide)
  rw [patches_of_ne hne, hnodes, List.flatMap_append, hquiet, hlast]
  simp

end Node

/-! ## Patches in what is built -/

/-- The change of an item that happens at once, if there is one. -/
def Effect.patch? : Effect → Option (Id .item × ItemPatch)
  | .modifyItem item patch => some (item, patch)
  | _ => none

mutual

/-- The changes to items that an action makes, at once or later, in their order. -/
def Action.patches : Action → List (Id .item × ItemPatch)
  | .effect effect => effect.patch?.toList
  | .schedule _ _ _ _ body => Statement.patchesIn body

def Deed.patches : Deed → List (Id .item × ItemPatch)
  | .mk action _ => action.patches

def Deed.patchesIn : List Deed → List (Id .item × ItemPatch)
  | [] => []
  | d :: ds => d.patches ++ Deed.patchesIn ds

def Statement.patches : Statement → List (Id .item × ItemPatch)
  | .perform deed => deed.patches
  | .branch _ deeds _ => Deed.patchesIn deeds

def Statement.patchesIn : List Statement → List (Id .item × ItemPatch)
  | [] => []
  | s :: ss => s.patches ++ Statement.patchesIn ss

end

theorem Deed.patchesIn_eq (ds : List Deed) : Deed.patchesIn ds = ds.flatMap Deed.patches := by
  induction ds with
  | nil => rfl
  | cons d ds ih => rw [Deed.patchesIn, ih, List.flatMap_cons]

theorem Statement.patchesIn_eq (ss : List Statement) :
    Statement.patchesIn ss = ss.flatMap Statement.patches := by
  induction ss with
  | nil => rfl
  | cons s ss ih => rw [Statement.patchesIn, ih, List.flatMap_cons]

/-- A change to an item with its id and its statements. -/
structure ItemPatch.Reflects (change : Id .item × ItemPatch) (n : Node) : Prop where
  item : NamedBy change.1 n
  gathers : Gathers fields change.2 n.nodes

/-- Changes to items are those that the statements of a construct make. -/
def Node.Orders (n : Node) (changes : List (Id .item × ItemPatch)) : Prop :=
  List.Forall₂ ItemPatch.Reflects changes n.patches

namespace Shape

theorem makes_modifyItem {n : Node} {e : Effect} : Makes (modifyItem n) e ↔
    ∃ change, ItemPatch.Reflects change n ∧ .modifyItem change.1 change.2 = e := by
  have hmakes {patch : ItemPatch} :
      Makes (n.nodes.foldlM patchStatement {}) patch ↔ Gathers ItemPatch.fields patch n.nodes :=
    (ItemPatch.goesBy.makes_foldlM (by simp [ItemPatch.fields, Keeping.slot, Keeping.list])).trans
      (and_iff_right rfl)
  unfold modifyItem
  simp only [makes_named, Prod.exists]
  refine exists_congr fun item => ?_
  constructor
  · rintro ⟨hitem, h⟩
    rw [nodes_tail hitem, makes_bind fun _ => Blind.done _] at h
    obtain ⟨patch, hpatch, h⟩ := h
    exact ⟨patch, ⟨hitem, hmakes.mp hpatch⟩, makes_done.mp h⟩
  · rintro ⟨patch, ⟨hitem, hgathers⟩, rfl⟩
    refine ⟨hitem, ?_⟩
    rw [nodes_tail hitem, makes_bind fun _ => Blind.done _]
    exact ⟨patch, hmakes.mpr hgathers, makes_done.mpr rfl⟩

/-- Other effects change no fields of items. -/
theorem patch?_of_effect {n : Node} {e : Effect} (h : effect n = .ok e) : e.patch? = none := by
  have hgives : Gives (fun _ => True) (effect n) fun e => e.patch? = none := by
    refine Yields.parts ?_
    split
    case h_36 => exact fun _ _ => .fail trivial
    all_goals repeat first | exact .done rfl | refine .behind fun _ => ?_
  exact hgives.ok h

section

variable {T : Token → Prop} {n : Node} {guard : Node → Except ShapeFault Condition}
  {body : Node → Collecting (List Statement)} {act : Node → Collecting Action}

/-- What is built of many constructs makes the changes that they order. -/
theorem orders_flatMap {α : Type} {build : Node → Collecting α}
    {patches : α → List (Id .item × ItemPatch)} {ns : List Node} {as : List α}
    (h : List.Forall₂ (fun k a => Makes (build k) a) ns as)
    (hbuild : ∀ k ∈ ns, ∀ a, Makes (build k) a → k.Orders (patches a)) :
    List.Forall₂ ItemPatch.Reflects (as.flatMap patches) (ns.flatMap Node.patches) := by
  induction h with
  | nil => exact .nil
  | @cons k a ns as hk _ ih =>
      rw [List.flatMap_cons, List.flatMap_cons]
      exact List.rel_append (hbuild k (by simp) a hk) (ih fun m hm => hbuild m (by simp [hm]))

/-- Actions make the changes that their constructs order. -/
def ActsInOrder (T : Token → Prop) (act : Node → Collecting Action) : Prop :=
  ∀ k : Node, k.Every (fun m => m.isFilled) T → k.rule ∈ Rule.actions →
    ∀ a, Makes (act k) a → k.Orders a.patches

theorem orders_deed (hn : n.Every (fun m => m.isFilled) T) (hr : n.rule = .doStmt)
    (hact : ActsInOrder T act) {d : Deed} (h : Makes (deed act n) d) : n.Orders d.patches := by
  obtain ⟨k, rest, hcs, a, ha, rfl⟩ := makes_deed.mp h
  have hrow := n.filled_row hn
  rw [hr, hcs] at hrow
  obtain ⟨m, rest', heq, hrule, ⟨hmem, hm⟩, hrest, -⟩ := hrow.child
  cases heq
  obtain rfl : rest = [] := by simpa using hrest
  have hnodes : n.nodes = [k] := by
    rw [Node.nodes, hcs]
    rfl
  have hpatches : n.patches = k.patches := by
    rw [Node.patches_of_ne (by simp [hr]), hnodes]
    simp
  rw [Node.Orders, hpatches]
  exact hact k (Element.every_node.mp hm) hrule a ha

theorem orders_branch (hn : n.Every (fun m => m.isFilled) T) (hr : n.rule = .condBlock)
    (hblind : ∀ k, Blind (act k)) (hact : ActsInOrder T act) {s : Statement}
    (h : Makes (branch guard act n) s) : n.Orders s.patches := by
  obtain ⟨c, rest, hcs, -, ds, hds, q, -, rfl⟩ := (makes_branch hblind).mp h
  have hrow := n.filled_row hn
  rw [hr, hcs] at hrow
  obtain ⟨m, rest', heq, hrule, ⟨-, hm⟩, hrest⟩ := hrow.child
  cases heq
  have hnodes : n.nodes = c :: Element.nodes rest := by
    rw [Node.nodes, hcs]
    rfl
  -- A condition orders nothing, so that only the deeds are left.
  have hcondition : ∀ r ∈ Rule.conditions, !r.leadsToBlocks := by decide
  have hpatches : n.patches = (Element.nodes rest).flatMap Node.patches := by
    rw [Node.patches_of_ne (by simp [hr]), hnodes, List.flatMap_cons,
      Node.patches_of_not_leadsToBlocks (Element.every_node.mp hm) (hcondition _ hrule),
      List.nil_append]
  rw [Node.Orders, hpatches, Statement.patches, Deed.patchesIn_eq]
  refine orders_flatMap hds fun k hk d hd => ?_
  obtain ⟨hrule, -, hk⟩ := hrest.nodes k hk
  exact orders_deed (Element.every_node.mp hk) (List.mem_singleton.mp hrule) hact hd

theorem orders_statement (hn : n.Every (fun m => m.isFilled) T) (hblind : ∀ k, Blind (act k))
    (hact : ActsInOrder T act) {s : Statement} (h : Makes (statement guard act n) s) :
    n.Orders s.patches := by
  unfold statement at h
  split at h
  · obtain ⟨d, hd, hs⟩ := (makes_bind fun _ => Blind.done _).mp h
    obtain rfl := makes_done.mp hs
    exact orders_deed hn ‹_› hact hd
  · exact orders_branch hn ‹_› hblind hact h
  · exact (makes_fail.mp h).elim

theorem orders_statements (hn : n.Every (fun m => m.isFilled) T) (hr : n.rule = .triggerBlock)
    (hblind : ∀ k, Blind (act k)) (hact : ActsInOrder T act) {ss : List Statement}
    (h : Makes (statements guard act n) ss) : n.Orders (Statement.patchesIn ss) := by
  obtain ⟨-, hss⟩ := (makes_statements hblind).mp h
  rw [Node.Orders, Node.patches_of_ne (by simp [hr]), Statement.patchesIn_eq]
  exact orders_flatMap hss fun k hk s hs => orders_statement (hn.node hk) hblind hact hs

theorem orders_actionOver (hn : n.Every (fun m => m.isFilled) T) (hr : n.rule ∈ Rule.actions)
    (hbody : ∀ k ∈ n.nodes, k.rule = .triggerBlock →
      ∀ ss, Makes (body k) ss → k.Orders (Statement.patchesIn ss))
    {a : Action} (h : Makes (actionOver guard body n) a) : n.Orders a.patches := by
  have hrow := n.filled_row hn
  unfold actionOver at h
  split at h <;> rename_i hrule
  · obtain ⟨e, he, ha⟩ := (makes_bind fun _ => Blind.done _).mp h
    obtain rfl := makes_done.mp ha
    obtain ⟨change, hreflects, rfl⟩ := makes_modifyItem.mp he
    rw [Node.Orders, Node.patches_of_modifyItem hn hrule]
    exact .cons hreflects .nil
  · obtain ⟨p, hp, ss, hss, rfl⟩ := makes_plainSchedule.mp h
    rw [hrule] at hrow
    obtain ⟨hblock, hmem, -⟩ := (hrow.parts ReadsHead.any.plain).ok hp
    rw [Node.Orders, Node.patches_of_body hn (by simp [hrule, Rule.schedules]) hmem hblock]
    exact hbody _ (Node.mem_nodes.mpr hmem) hblock ss hss
  · obtain ⟨p, hp, q, -, ss, hss, rfl⟩ := makes_guardedSchedule.mp h
    rw [hrule] at hrow
    obtain ⟨-, hblock, hmem, -⟩ := (hrow.parts ReadsHead.any.guarded).ok hp
    rw [Node.Orders, Node.patches_of_body hn (by simp [hrule, Rule.schedules]) hmem hblock]
    exact hbody _ (Node.mem_nodes.mpr hmem) hblock ss hss
  · obtain ⟨e, he, ha⟩ := makes_given.mp h
    obtain rfl := makes_done.mp ha
    have heffect : ∀ r ∈ Rule.effects, !r.leadsToBlocks := by decide
    have hquiet : n.rule ∈ Rule.effects := by simp_all [Rule.actions]
    rw [Node.Orders, Node.patches_of_not_leadsToBlocks hn (heffect _ hquiet), Action.patches,
      patch?_of_effect he]
    exact .nil

theorem orders_action {limit levels : Nat} : ActsInOrder T (action limit levels) := by
  induction levels with
  | zero =>
      intro n hn hr a h
      exact orders_actionOver hn hr (fun _ _ _ _ h => (makes_fail.mp h).elim) h
  | succ levels ih =>
      intro n hn hr a h
      refine orders_actionOver hn hr (fun k hk hblock ss hss => ?_) h
      exact orders_statements (hn.node hk) hblock (blind_action limit levels) ih hss

theorem triggerParts_block {name : String} {modifiers : List Node} {notes : List String} {e : Event}
    {block : Node} (hn : n.Every (fun m => m.isFilled) T) (hr : n.rule = .triggerDef)
    (h : n.parts triggerParts = .ok (name, modifiers, notes, e, block)) :
    block.rule = .triggerBlock ∧ block ∈ n.nodes := by
  have hrow := n.filled_row hn
  rw [hr] at hrow
  have hevent (k : Node) (hk : k.rule ∈ Rule.events) (hpart : n.FilledPart T (.node k)) :
      Gives (fun _ => True) (event k) (·.Named fun _ => True) :=
    event_of_row (fun _ _ _ => trivial) hk (k.filled_row (Element.every_node.mp hpart.2))
  obtain ⟨-, hblock, hmem, -⟩ := (hrow.parts (triggerHead_reads (fun _ _ _ => .any) hevent)).ok h
  exact ⟨hblock, Node.mem_nodes.mpr hmem⟩

theorem orders_trigger {limit : Nat} (hn : n.Every (fun m => m.isFilled) T)
    (hr : n.rule = .triggerDef) {t : Trigger} (h : Makes (trigger limit n) t) :
    n.Orders (Statement.patchesIn t.block) := by
  obtain ⟨name, modifiers, notes, e, block, hp, ss, hss, rfl⟩ := makes_trigger.mp h
  obtain ⟨hblock, hmem⟩ := triggerParts_block hn hr hp
  rw [Node.Orders, Node.patches_of_body hn (by simp [hr]) (Node.mem_nodes.mp hmem) hblock]
  exact orders_statements (hn.node hmem) hblock (blind_action limit limit) orders_action hss

end

end Shape

/-! ## Kept definitions -/

open Shape

/-- A definition and the construct that it is built from. Rooms, items, npcs and goals keep what
their statements say, and triggers make the changes to items that their statements order. -/
def Definition.Reflects : Definition → Node → Prop
  | .roomSet _, n => n.rule = .setDecl
  | .room r, n => n.rule = .roomDef ∧ r.Reflects n
  | .item i, n => n.rule = .itemDef ∧ i.Reflects n
  | .npc c, n => n.rule = .npcDef ∧ c.Reflects n
  | .trigger t, n => n.rule = .triggerDef ∧ n.Orders (Statement.patchesIn t.block)
  | .spinner _, n => n.rule = .spinnerDef
  | .goal g, n => n.rule = .goalDef ∧ g.Reflects n

namespace Built

variable {source : List Char} {tokens : List Token} {limit : Nat} {n : Node} {d : Definition}

theorem reflects_of_makes {T : Token → Prop} (hn : n.Every (fun m => m.isFilled) T)
    (h : Makes (definition limit n) d) : d.Reflects n := by
  unfold definition at h
  split at h <;> rename_i hr
  case h_8 => exact (makes_fail.mp h).elim
  case h_1 | h_6 =>
    obtain ⟨x, -, hd⟩ := makes_given.mp h
    obtain rfl := makes_done.mp hd
    exact hr
  all_goals
    obtain ⟨x, hx, hd⟩ := (makes_bind fun _ => Blind.done _).mp h
    obtain rfl := makes_done.mp hd
  · exact ⟨hr, Room.makes_iff.mp hx⟩
  · exact ⟨hr, Item.makes_iff.mp hx⟩
  · exact ⟨hr, Npc.makes_iff.mp hx⟩
  · exact ⟨hr, orders_trigger hn hr hx⟩
  · exact ⟨hr, Goal.makes_iff.mp hx⟩

/-- The definitions that are kept, each with the construct that it is built from. -/
theorem exists_kept (limit : Nat) (ns : List Node) : ∃ kept, kept.Sublist ns ∧
    List.Forall₂ (fun d n => Makes (definition limit n) d) (ofNodes limit ns).definitions kept := by
  induction ns with
  | nil => exact ⟨[], .slnil, .nil⟩
  | cons n ns ih =>
      obtain ⟨kept, hsub, hkept⟩ := ih
      rw [ofNodes, definitions_append, ofNode]
      split
      · rename_i d hrun
        exact ⟨n :: kept, hsub.cons_cons n, .cons hrun hkept⟩
      · exact ⟨kept, hsub.cons n, hkept⟩
      · exact ⟨kept, hsub.cons n, hkept⟩

/-- Every definition that is kept reflects its construct, and so does everything in it. -/
theorem ofTree_reflects (h : Lexer.tokens source = .ok tokens) (settings settings' : Settings) :
    let tree := (Tree.ofTokens settings tokens).tree
    ∃ kept, kept.Sublist tree.root.nodes ∧
      List.Forall₂ Definition.Reflects (ofTree settings' tree).definitions kept := by
  intro tree
  obtain ⟨-, hsound⟩ := (Tree.ofTokens_grown settings h).root
  obtain ⟨kept, hsub, hkept⟩ := exists_kept settings'.maxNesting tree.root.nodes
  refine ⟨kept, hsub, List.forall₂_iff_zip.mpr ⟨hkept.length_eq, fun hzip => ?_⟩⟩
  have hn := hsub.subset (List.of_mem_zip hzip).2
  refine reflects_of_makes (T := (· ∈ tokens)) ?_ ((List.forall₂_iff_zip.mp hkept).2 hzip)
  exact (Node.Every.node hsound hn).mono (fun _ hk => hk.filled) fun _ ht => ht

/-- A room with an exit that is barred, and a trigger that changes an item. -/
def hallAndLamp : String :=
  "room hall \x7b exit up -> attic \x7b barred \"No.\" \x7d \x7d " ++
    "trigger \"t\" when always \x7b do modify item lamp \x7b name \"Lit\" \x7d \x7d"

theorem ofTree_reflects_hallAndLamp :
    let tree := (Tree.ofTokens {} (Lexer.tokensOf hallAndLamp)).tree
    Lexer.tokens hallAndLamp.toList = .ok (Lexer.tokensOf hallAndLamp) ∧
      (ofTree {} tree).definitions.length = 2 ∧
      ∃ kept, kept.Sublist tree.root.nodes ∧
        List.Forall₂ Definition.Reflects (ofTree {} tree).definitions kept := by
  have h : Lexer.tokens hallAndLamp.toList = .ok (Lexer.tokensOf hallAndLamp) := by
    decide +kernel
  have htwo : (ofTree {} (Tree.ofTokens {} (Lexer.tokensOf hallAndLamp)).tree).definitions.length = 2 := by
    decide +kernel
  exact ⟨h, htwo, ofTree_reflects h {} {}⟩

end Built

end Storyworld
