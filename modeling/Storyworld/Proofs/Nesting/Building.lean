import Storyworld.Proofs.Shape.Independence

namespace Storyworld

/-! Triggers built with another limit. Where building finds no fault, building with another limit
finds none either or nothing but that something lies too deep, and this exactly where there is more
nesting than the limit allows. -/

variable {T : Token → Prop} {n : Node} {k : Nat}

/-! ## How deep the parts of a node lie -/

namespace Node

theorem nesting_le_of_not_nests (hr : n.rule ∉ Rule.groups ++ Rule.schedules) :
    n.nesting ≤ k ↔ ∀ m ∈ n.nodes, m.nesting ≤ k := by
  have hr : n.rule ∉ Rule.groups ∧ n.rule ∉ Rule.schedules := by simpa using hr
  have hnests (part : Rule) : n.rule.nests part = false := by simp [Rule.nests, hr]
  rw [nesting_le]
  simp only [hnests, Bool.toNat_false, Nat.add_zero]

theorem nesting_le_of_group (hr : n.rule ∈ Rule.groups) :
    n.nesting ≤ k ↔ ∀ m ∈ n.nodes, m.nesting < k := by
  have hnests (part : Rule) : n.rule.nests part = true := by simp [Rule.nests, hr]
  rw [nesting_le]
  simp only [hnests, Bool.toNat_true, Nat.add_one_le_iff]

theorem nesting_of_flat (hn : n.Every (fun m => m.isFilled) T) (hr : n.rule.isFlat) : n.nesting = 0 :=
  nesting_of_isFlat (fun _ h => h) n hn hr

/-- In a schedule the guard lies no deeper than the schedule, and the body a level deeper. -/
theorem nesting_le_of_schedule {b : Node} (hr : n.rule ∈ Rule.schedules)
    (hn : n.Every (fun m => m.isFilled) T) (hb : n.HasBody b) :
    n.nesting ≤ k ↔ (∀ g ∈ n.nodes, g.rule ∈ Rule.conditions → g.nesting ≤ k) ∧ b.nesting < k := by
  have hnests : n.rule.nests .triggerBlock = true := by simp [Rule.nests, hr]
  have hslots : n.rule.slots.all (Slot.keepsTo fun r =>
      Rule.conditions.contains r || r.isFlat || r = .triggerBlock) := by
    have hrule : n.rule = .actSchedule ∨ n.rule = .actScheduleIf := by simpa [Rule.schedules] using hr
    rcases hrule with hrule | hrule <;> rw [hrule] <;> decide
  rw [nesting_le]
  constructor
  · intro h
    refine ⟨fun g hg _ => (Nat.le_add_right _ _).trans (h g hg), ?_⟩
    have hbody := h b hb.mem
    rwa [hb.rule, hnests] at hbody
  · rintro ⟨hguard, hbody⟩ m hm
    by_cases hblock : m.rule = .triggerBlock
    · obtain rfl : m = b := (hb.only m hm).resolve_right (by rw [hblock]; decide)
      rw [hblock, hnests]
      exact hbody
    · have hsame : n.rule.nests m.rule = false := by
        have hgroup : Rule.schedules.all fun r => !Rule.groups.contains r := by decide
        have hgroup := List.all_eq_true.mp hgroup _ hr
        simp_all [Rule.nests]
      rw [hsame, Bool.toNat_false, Nat.add_zero]
      have hrule := rule_of_slots hn.here hslots hm
      simp only [hblock, decide_false, Bool.or_false, Bool.or_eq_true] at hrule
      rcases hrule with hcondition | hflat
      · exact hguard m hm (by simpa using hcondition)
      · rw [nesting_of_flat (hn.node hm) hflat]
        exact Nat.zero_le k

/-- In a trigger nothing lies deep but its block. -/
theorem nesting_le_of_trigger {b : Node} (hr : n.rule = .triggerDef)
    (hn : n.Every (fun m => m.isFilled) T) (hb : n.HasBody b) : n.nesting ≤ k ↔ b.nesting ≤ k := by
  have hslots : n.rule.slots.all (Slot.keepsTo fun r => r.isFlat || r = .triggerBlock) := by
    rw [hr]
    decide
  rw [nesting_le_of_not_nests (by rw [hr]; decide)]
  constructor
  · exact fun h => h b hb.mem
  · intro h m hm
    by_cases hblock : m.rule = .triggerBlock
    · obtain rfl : m = b := (hb.only m hm).resolve_right (by rw [hblock]; decide)
      exact h
    · have hflat : m.rule.isFlat := by simpa [hblock] using rule_of_slots hn.here hslots hm
      rw [nesting_of_flat (hn.node hm) hflat]
      exact Nat.zero_le k

/-- A schedule has no more than one guard. -/
theorem exists_guard (hr : n.rule = .actScheduleIf) (h : n.isFilled) :
    ∃ g, ∀ m ∈ n.nodes, m.rule ∈ Rule.conditions → m = g := by
  have hrow : RowOf (fun _ => True) n.rule.slots n.children := ⟨h, fun _ _ => trivial⟩
  rw [hr] at hrow
  obtain ⟨_, _, hanchor, -, -, hrow⟩ := hrow.token fun _ => rfl
  obtain ⟨_, _, hturns, -, -, hrow⟩ := hrow.token fun _ => rfl
  obtain ⟨g, cs, hguard, -, -, hrow⟩ := hrow.child
  use g
  intro m hm hcondition
  have hmem := mem_nodes.mp hm
  rw [hanchor, hturns, hguard] at hmem
  have hmem : m = g ∨ Element.node m ∈ cs := by simpa using hmem
  apply hmem.resolve_right
  intro hm
  obtain ⟨slot, hslot, hfits⟩ := exists_fits hrow.1 hm
  have hall : [Slot.optional (.node Rule.retries), .optional (.node [.note]),
      .one (.node [.triggerBlock])].all (Slot.keepsTo fun r => !Rule.conditions.contains r) := by
    decide
  have hnot := rule_of_keepsTo (List.all_eq_true.mp hall slot hslot) hfits
  simp [hcondition] at hnot

end Node

namespace Shape

variable {α β : Type} {limit limit' levels levels' : Nat} {fs gs : List ShapeFault} {P Q : Prop}

/-! ## Nothing at fault but depth -/

/-- Nothing is at fault but that something lies too deep, and nothing at all where it is `shallow`. -/
structure OnlyDeep (limit : Nat) (shallow : Prop) (fs : List ShapeFault) : Prop where
  nil_iff : fs = [] ↔ shallow
  tooDeep : ∀ f ∈ fs, ∃ n, f = tooDeep limit n

namespace OnlyDeep

theorem congr (h : OnlyDeep limit P fs) (hPQ : P ↔ Q) : OnlyDeep limit Q fs :=
  ⟨h.nil_iff.trans hPQ, h.tooDeep⟩

theorem nil (h : P) : OnlyDeep limit P [] :=
  ⟨⟨fun _ => h, fun _ => rfl⟩, by simp⟩

theorem single (h : ¬P) : OnlyDeep limit P [Shape.tooDeep limit n] :=
  ⟨⟨nofun, fun hP => absurd hP h⟩, fun _ hf => ⟨n, List.mem_singleton.mp hf⟩⟩

theorem append (hf : OnlyDeep limit P fs) (hg : OnlyDeep limit Q gs) :
    OnlyDeep limit (P ∧ Q) (fs ++ gs) := by
  constructor
  · rw [List.append_eq_nil_iff, hf.nil_iff, hg.nil_iff]
  · intro f hmem
    exact (List.mem_append.mp hmem).elim (hf.tooDeep f) (hg.tooDeep f)

theorem flatMap {as : List α} {f : α → List ShapeFault} {P : α → Prop}
    (h : ∀ a ∈ as, OnlyDeep limit (P a) (f a)) : OnlyDeep limit (∀ a ∈ as, P a) (as.flatMap f) := by
  constructor
  · rw [List.flatMap_eq_nil_iff]
    exact forall₂_congr fun a ha => (h a ha).nil_iff
  · intro fault hmem
    obtain ⟨a, ha, hfault⟩ := List.mem_flatMap.mp hmem
    exact (h a ha).tooDeep fault hfault

end OnlyDeep

/-! ## Conditions -/

/-- The fault with which building ends at once, if it does. -/
def failure : Except ShapeFault α → List ShapeFault
  | .ok _ => []
  | .error fault => [fault]

@[simp] theorem failure_ok {a : α} : failure (.ok a : Except ShapeFault α) = [] := rfl

@[simp] theorem failure_error {fault : ShapeFault} :
    failure (.error fault : Except ShapeFault α) = [fault] := rfl

@[simp] theorem failure_map {x : Except ShapeFault α} {f : α → β} : failure (f <$> x) = failure x := by
  cases x <;> rfl

theorem mapM_cons_except {f : α → Except ShapeFault β} {a : α} {as : List α} :
    (a :: as).mapM f = match f a with
      | .ok b => List.cons b <$> as.mapM f
      | .error fault => .error fault := by
  rw [List.mapM_cons]
  cases f a <;> rfl

theorem failure_mapM_cons {f : α → Except ShapeFault β} {a : α} {as : List α} :
    failure ((a :: as).mapM f) = match f a with
      | .ok _ => failure (as.mapM f)
      | .error fault => [fault] := by
  rw [mapM_cons_except]
  cases f a <;> simp

theorem failure_of_mapM {f : α → Except ShapeFault β} {as : List α} (h : failure (as.mapM f) = []) :
    ∀ a ∈ as, failure (f a) = [] := by
  induction as with
  | nil => simp
  | cons a as ih =>
      rw [failure_mapM_cons] at h
      cases ha : f a with
      | error fault => simp [ha] at h
      | ok b =>
          rw [ha] at h
          exact List.forall_mem_cons.mpr ⟨by simp [ha], ih h⟩

/-- The first failure ends the building of a list. -/
theorem OnlyDeep.mapM {f : α → Except ShapeFault β} {as : List α} {P : α → Prop}
    (h : ∀ a ∈ as, OnlyDeep limit (P a) (failure (f a))) :
    OnlyDeep limit (∀ a ∈ as, P a) (failure (as.mapM f)) := by
  induction as with
  | nil => exact .nil (by simp)
  | cons a as ih =>
      obtain ⟨ha, has⟩ := List.forall_mem_cons.mp h
      rw [failure_mapM_cons]
      simp only [List.forall_mem_cons]
      cases hf : f a with
      | error fault =>
          rw [hf] at ha
          exact ⟨⟨nofun, fun hall => absurd (ha.nil_iff.mpr hall.1) (by simp)⟩, ha.tooDeep⟩
      | ok b =>
          have hP : P a := ha.nil_iff.mp (by rw [hf]; rfl)
          exact (ih has).congr (by simp [hP])

section

variable {member member' : Node → Except ShapeFault Condition}

theorem conditionOver_of_group (hr : n.rule ∈ Rule.groups) :
    failure (conditionOver member n) =
      if n.nodes = [] then [.empty "condition group" n.span] else failure (n.nodes.mapM member) := by
  have hgroup : n.rule = .condAny ∨ n.rule = .condAll := by simpa [Rule.groups] using hr
  unfold conditionOver
  rw [if_pos (by simpa using hgroup)]
  cases hnodes : n.nodes with
  | nil => rfl
  | cons m ms =>
      rw [if_neg (by simp), mapM_cons_except]
      cases hm : member m with
      | error fault => rfl
      | ok c =>
          cases hms : ms.mapM member <;> rfl

theorem conditionOver_onlyDeep (hn : n.Every (fun m => m.isFilled) T) (hr : n.rule ∈ Rule.conditions)
    (h : failure (conditionOver member' n) = [])
    (hmember : ∀ m ∈ n.nodes, m.rule ∈ Rule.conditions → failure (member' m) = [] →
      OnlyDeep limit (m.nesting < levels) (failure (member m))) :
    OnlyDeep limit (n.nesting ≤ levels) (failure (conditionOver member n)) := by
  by_cases hgroup : n.rule ∈ Rule.groups
  · rw [conditionOver_of_group hgroup] at h ⊢
    split at h
    · cases h
    · rw [if_neg ‹_›]
      refine (OnlyDeep.mapM fun m hm => hmember m hm ?_ (failure_of_mapM h m hm)).congr
        (Node.nesting_le_of_group hgroup).symm
      have hslots : n.rule.slots.all (Slot.keepsTo Rule.conditions.contains) := by
        have hrule : n.rule = .condAny ∨ n.rule = .condAll := by simpa [Rule.groups] using hgroup
        rcases hrule with hrule | hrule <;> rw [hrule] <;> decide
      simpa using Node.rule_of_slots hn.here hslots hm
  · have hflat : n.rule.isFlat := by
      have hall : Rule.conditions.all fun r => Rule.groups.contains r || r.isFlat := by decide
      simpa [hgroup] using List.all_eq_true.mp hall _ hr
    have hsame : conditionOver member n = conditionOver member' n :=
      conditionOver_congr fun hr => absurd hr hgroup
    rw [hsame, h]
    exact .nil ((Node.nesting_of_flat hn hflat).trans_le (Nat.zero_le _))

end

/-- A condition that is built with some levels is built with others, or it lies too deep for them. -/
theorem condition_onlyDeep (hn : n.Every (fun m => m.isFilled) T) (hr : n.rule ∈ Rule.conditions)
    (h : failure (condition limit' levels' n) = []) :
    OnlyDeep limit (n.nesting ≤ levels) (failure (condition limit levels n)) := by
  induction levels generalizing levels' n with
  | zero =>
      cases levels' <;> exact conditionOver_onlyDeep hn hr h fun m _ _ _ => .single (Nat.not_lt_zero _)
  | succ levels ih =>
      cases levels' with
      | zero => exact conditionOver_onlyDeep hn hr h fun m _ _ hm => by cases hm
      | succ levels' =>
          apply conditionOver_onlyDeep hn hr h
          intro m hm hmr hok
          exact (ih (hn.node hm) hmr hok).congr Nat.lt_succ_iff.symm

/-! ## Actions -/

theorem exists_ok_of_faults {x : Except ShapeFault α} {f : α → Collecting β}
    (h : faults (liftM x >>= f) = []) : ∃ a, x = .ok a := by
  cases x with
  | error fault => cases h
  | ok a => exact ⟨a, rfl⟩

section

variable {guard guard' : Node → Except ShapeFault Condition}
  {body body' : Node → Collecting (List Statement)} {act act' : Node → Collecting Action}

theorem actionOver_of_not_schedule (hr : n.rule ∉ Rule.schedules) :
    actionOver guard body n = actionOver guard' body' n := by
  unfold actionOver
  split <;> simp_all [Rule.schedules]

/-- A guarded schedule has the faults of its body and behind them that of its guard. -/
theorem faults_guardedSchedule {p : ScheduleParts}
    (hread : n.parts scheduleParts = .ok p) :
    faults (guardedSchedule guard body n) = faults (body p.body) ++ failure (guard p.guard) := by
  unfold guardedSchedule
  rw [faults_lift_bind hread]
  cases guard p.guard with
  | ok c => exact faults_map.trans (List.append_nil _).symm
  | error fault =>
      obtain ⟨b?, hkeep⟩ := exists_keep (m := body p.body)
      have hdiscard : (discard (keep (body p.body)) : Collecting Unit) [] =
          .ok () (faults (body p.body)) := by
        change ((fun _ => ()) <$> keep (body p.body) : Collecting Unit) [] = _
        change EStateM.map _ _ _ = _
        unfold EStateM.map
        rw [hkeep]
      exact faults_bind_of_ok hdiscard (.fail fault)

theorem plainSchedule_onlyDeep (hr : n.rule = .actSchedule) (hn : n.Every (fun m => m.isFilled) T)
    (h : faults (plainSchedule body' n) = [])
    (hbody : ∀ m ∈ n.nodes, m.rule = .triggerBlock → faults (body' m) = [] →
      OnlyDeep limit (m.nesting < levels) (faults (body m))) :
    OnlyDeep limit (n.nesting ≤ levels) (faults (plainSchedule body n)) := by
  have hschedule : n.rule ∈ Rule.schedules := by simp [hr, Rule.schedules]
  have hrow := n.filled_row hn
  rw [hr] at hrow
  unfold plainSchedule at h ⊢
  obtain ⟨p, hread⟩ := exists_ok_of_faults h
  obtain ⟨hrule, hmem, -⟩ := (hrow.parts ReadsHead.any.plain).ok hread
  have hmem := Node.mem_nodes.mpr hmem
  rw [faults_lift_bind hread] at h ⊢
  have h : faults (body' p.2.2.2) = [] := faults_map.symm.trans h
  obtain ⟨b, hb⟩ := Node.exists_body hn.here (List.mem_cons_of_mem _ hschedule)
  obtain hsame : p.2.2.2 = b := (hb.only _ hmem).resolve_right (by rw [hrule]; decide)
  have hnone : ∀ g ∈ n.nodes, g.rule ∈ Rule.conditions → g.nesting ≤ levels := by
    have hslots : n.rule.slots.all (Slot.keepsTo fun r => !Rule.conditions.contains r) := by
      rw [hr]
      decide
    intro g hg hcondition
    have hnot := Node.rule_of_slots hn.here hslots hg
    simp [hcondition] at hnot
  have hfaults : faults (do return Action.schedule p.1 p.2.1 none p.2.2.1 (← body p.2.2.2)) =
      faults (body p.2.2.2) := faults_map
  dsimp only
  rw [hfaults]
  refine (hbody _ hmem hrule h).congr ?_
  rw [Node.nesting_le_of_schedule hschedule hn hb, hsame]
  exact ⟨fun hlt => ⟨hnone, hlt⟩, And.right⟩

theorem guardedSchedule_onlyDeep (hr : n.rule = .actScheduleIf)
    (hn : n.Every (fun m => m.isFilled) T) (h : faults (guardedSchedule guard' body' n) = [])
    (hguard : ∀ m ∈ n.nodes, m.rule ∈ Rule.conditions → failure (guard' m) = [] →
      OnlyDeep limit (m.nesting ≤ levels) (failure (guard m)))
    (hbody : ∀ m ∈ n.nodes, m.rule = .triggerBlock → faults (body' m) = [] →
      OnlyDeep limit (m.nesting < levels) (faults (body m))) :
    OnlyDeep limit (n.nesting ≤ levels) (faults (guardedSchedule guard body n)) := by
  have hschedule : n.rule ∈ Rule.schedules := by simp [hr, Rule.schedules]
  have hrow := n.filled_row hn
  rw [hr] at hrow
  obtain ⟨p, hread⟩ := exists_ok_of_faults h
  obtain ⟨⟨hg, hgm, -⟩, hrule, hmem, -⟩ := (hrow.parts ReadsHead.any.guarded).ok hread
  have hmem := Node.mem_nodes.mpr hmem
  have hgm := Node.mem_nodes.mpr hgm
  rw [faults_guardedSchedule hread, List.append_eq_nil_iff] at h
  rw [faults_guardedSchedule hread]
  obtain ⟨b, hb⟩ := Node.exists_body hn.here (List.mem_cons_of_mem _ hschedule)
  obtain hsame : p.body = b := (hb.only _ hmem).resolve_right (by rw [hrule]; decide)
  obtain ⟨g, honly⟩ := Node.exists_guard hr hn.here
  refine ((hbody _ hmem hrule h.1).append (hguard _ hgm hg h.2)).congr ?_
  rw [Node.nesting_le_of_schedule hschedule hn hb, hsame, and_comm]
  apply and_congr_left
  intro _
  constructor
  · intro hle m hm hcondition
    rwa [honly m hm hcondition, ← honly _ hgm hg]
  · exact fun hall => hall _ hgm hg

theorem actionOver_onlyDeep (hr : n.rule ∈ Rule.actions) (hn : n.Every (fun m => m.isFilled) T)
    (h : faults (actionOver guard' body' n) = [])
    (hguard : ∀ m ∈ n.nodes, m.rule ∈ Rule.conditions → failure (guard' m) = [] →
      OnlyDeep limit (m.nesting ≤ levels) (failure (guard m)))
    (hbody : ∀ m ∈ n.nodes, m.rule = .triggerBlock → faults (body' m) = [] →
      OnlyDeep limit (m.nesting < levels) (faults (body m))) :
    OnlyDeep limit (n.nesting ≤ levels) (faults (actionOver guard body n)) := by
  by_cases hschedule : n.rule ∈ Rule.schedules
  · have hrule : n.rule = .actSchedule ∨ n.rule = .actScheduleIf := by
      simpa [Rule.schedules] using hschedule
    rcases hrule with hrule | hrule <;> simp only [actionOver, hrule] at h ⊢
    · exact plainSchedule_onlyDeep hrule hn h hbody
    · exact guardedSchedule_onlyDeep hrule hn h hguard hbody
  · have hflat : n.rule.isFlat := by
      have hall : Rule.actions.all fun r => Rule.schedules.contains r || r.isFlat := by decide
      simpa [hschedule] using List.all_eq_true.mp hall _ hr
    have hsame : actionOver guard body n = actionOver guard' body' n :=
      actionOver_of_not_schedule hschedule
    rw [hsame, h]
    exact .nil ((Node.nesting_of_flat hn hflat).trans_le (Nat.zero_le _))

/-! ## Statements -/

theorem deed_onlyDeep (hr : n.rule = .doStmt) (hn : n.Every (fun m => m.isFilled) T)
    (h : faults (deed act' n) = [])
    (haction : ∀ m ∈ n.nodes, m.rule ∈ Rule.actions → faults (act' m) = [] →
      OnlyDeep limit (m.nesting ≤ levels) (faults (act m))) :
    OnlyDeep limit (n.nesting ≤ levels) (faults (deed act n)) := by
  obtain ⟨a, hnodes, ha, hfaults⟩ := faults_deed act hr hn.here
  obtain ⟨a', hnodes', -, hfaults'⟩ := faults_deed act' hr hn.here
  obtain rfl : a = a' := by simpa [hnodes] using hnodes'
  have hmem : a ∈ n.nodes := by simp [hnodes]
  rw [hfaults'] at h
  rw [hfaults]
  refine (haction a hmem ha h).congr ?_
  rw [Node.nesting_le_of_not_nests (n := n) (by rw [hr]; decide), hnodes, List.forall_mem_singleton]

/-- A branch has the faults of its deeds and behind them that of its condition, or it is empty. -/
theorem faults_branch {c : Node} {cs : List Element} (hact : ∀ m, Blind (act m))
    (hread : n.head (child "condition") = .ok (c, cs)) :
    faults (branch guard act n) = (Element.nodes cs).flatMap (fun d => faults (deed act d)) ++
      failure (do
        let _ ← guard c
        if (Element.nodes cs).isEmpty then throw (.empty "if block" n.span)) := by
  obtain ⟨ds?, hdeeds⟩ := exists_mapM_keep (Element.nodes cs) (blind_deed hact)
  have hkept : keepAll (deed act) (Element.nodes cs) [] =
      .ok ds?.reduceOption ((Element.nodes cs).flatMap fun d => faults (deed act d)) := by
    unfold keepAll
    rw [run_bind, hdeeds]
    rfl
  unfold branch
  rw [faults_lift_bind hread]
  refine (faults_bind_of_ok hkept blind_branchEnd).trans (congrArg _ ?_)
  cases guard c with
  | error fault => rfl
  | ok condition => cases Element.nodes cs <;> rfl

/-- A branch that is not empty fails where its condition does. -/
theorem failure_branchEnd {x : Except ShapeFault Condition} {ns : List Node} {span : Span}
    (hne : ns ≠ []) : failure (do
      let _ ← x
      if ns.isEmpty then throw (.empty "if block" span)) = failure x := by
  cases ns with
  | nil => contradiction
  | cons n ns => cases x <;> rfl

theorem ne_nil_of_branchEnd {x : Except ShapeFault Condition} {ns : List Node} {span : Span}
    (h : failure (do
      let _ ← x
      if ns.isEmpty then throw (.empty "if block" span)) = []) : ns ≠ [] := by
  rintro rfl
  cases x <;> cases h

theorem branch_onlyDeep (hr : n.rule = .condBlock) (hn : n.Every (fun m => m.isFilled) T)
    (hact : ∀ m, Blind (act m)) (hact' : ∀ m, Blind (act' m)) (h : faults (branch guard' act' n) = [])
    (hguard : ∀ m ∈ n.nodes, m.rule ∈ Rule.conditions → failure (guard' m) = [] →
      OnlyDeep limit (m.nesting ≤ levels) (failure (guard m)))
    (hdeed : ∀ m ∈ n.nodes, m.rule = .doStmt → faults (deed act' m) = [] →
      OnlyDeep limit (m.nesting ≤ levels) (faults (deed act m))) :
    OnlyDeep limit (n.nesting ≤ levels) (faults (branch guard act n)) := by
  have hrow := n.filled_row hn
  rw [hr] at hrow
  obtain ⟨c, cs, hcs, hc, -, hrest⟩ := hrow.child
  have hread : n.head (child "condition") = .ok (c, cs) := by
    unfold Node.head
    rw [hcs]
    rfl
  have hnodes : n.nodes = c :: Element.nodes cs := by
    simp [Node.nodes, hcs, Element.nodes, Element.node?]
  rw [faults_branch hact' hread, List.append_eq_nil_iff, List.flatMap_eq_nil_iff] at h
  obtain ⟨hdeeds, hend⟩ := h
  rw [faults_branch hact hread]
  have hne := ne_nil_of_branchEnd hend
  rw [failure_branchEnd hne] at hend ⊢
  rw [hnodes, List.forall_mem_cons] at hguard hdeed
  have hbranch := (OnlyDeep.flatMap fun d hd => hdeed.2 d hd
    (List.mem_singleton.mp (hrest.nodes d hd).1) (hdeeds d hd)).append (hguard.1 hc hend)
  refine hbranch.congr ?_
  rw [Node.nesting_le_of_not_nests (n := n) (by rw [hr]; decide), hnodes, List.forall_mem_cons,
    and_comm]

theorem statement_onlyDeep (hr : n.rule ∈ Rule.statements) (hn : n.Every (fun m => m.isFilled) T)
    (hact : ∀ m, Blind (act m)) (hact' : ∀ m, Blind (act' m))
    (h : faults (statement guard' act' n) = [])
    (hguard : ∀ m, m.Every (fun m => m.isFilled) T → m.rule ∈ Rule.conditions →
      failure (guard' m) = [] → OnlyDeep limit (m.nesting ≤ levels) (failure (guard m)))
    (haction : ∀ m, m.Every (fun m => m.isFilled) T → m.rule ∈ Rule.actions → faults (act' m) = [] →
      OnlyDeep limit (m.nesting ≤ levels) (faults (act m))) :
    OnlyDeep limit (n.nesting ≤ levels) (faults (statement guard act n)) := by
  have hdeed {m : Node} (hm : m.Every (fun m => m.isFilled) T) (hrule : m.rule = .doStmt)
      (h : faults (deed act' m) = []) : OnlyDeep limit (m.nesting ≤ levels) (faults (deed act m)) :=
    deed_onlyDeep hrule hm h fun a ha => haction a (hm.node ha)
  have hrule : n.rule = .doStmt ∨ n.rule = .condBlock := by simpa [Rule.statements] using hr
  rcases hrule with hrule | hrule
  · rw [faults_statement hrule] at h ⊢
    exact hdeed hn hrule h
  · simp only [statement, hrule] at h ⊢
    exact branch_onlyDeep hrule hn hact hact' h (fun m hm => hguard m (hn.node hm)) fun m hm =>
      hdeed (hn.node hm)

theorem faults_statements (hact : ∀ m, Blind (act m)) :
    faults (statements guard act n) = if n.nodes = [] then [.empty "trigger block" n.span]
      else n.nodes.flatMap fun m => faults (statement guard act m) := by
  unfold statements
  cases hnodes : n.nodes with
  | nil => rfl
  | cons m ms =>
      rw [if_neg (by simp), if_neg (by simp)]
      exact faults_keepAll (blind_statement hact)

theorem statements_onlyDeep (hr : n.rule = .triggerBlock) (hn : n.Every (fun m => m.isFilled) T)
    (hact : ∀ m, Blind (act m)) (hact' : ∀ m, Blind (act' m))
    (h : faults (statements guard' act' n) = [])
    (hguard : ∀ m, m.Every (fun m => m.isFilled) T → m.rule ∈ Rule.conditions →
      failure (guard' m) = [] → OnlyDeep limit (m.nesting ≤ levels) (failure (guard m)))
    (haction : ∀ m, m.Every (fun m => m.isFilled) T → m.rule ∈ Rule.actions → faults (act' m) = [] →
      OnlyDeep limit (m.nesting ≤ levels) (faults (act m))) :
    OnlyDeep limit (n.nesting ≤ levels) (faults (statements guard act n)) := by
  have hrow := n.filled_row hn
  rw [hr] at hrow
  rw [faults_statements hact'] at h
  rw [faults_statements hact]
  split at h
  · cases h
  · rw [if_neg ‹_›]
    rw [List.flatMap_eq_nil_iff] at h
    refine (OnlyDeep.flatMap fun m hm => ?_).congr
      (Node.nesting_le_of_not_nests (by rw [hr]; decide)).symm
    exact statement_onlyDeep (hrow.nodes m hm).1 (hn.node hm) hact hact' (h m hm) hguard haction

end

theorem action_onlyDeep (hr : n.rule ∈ Rule.actions) (hn : n.Every (fun m => m.isFilled) T)
    (h : faults (action limit' levels' n) = []) :
    OnlyDeep limit (n.nesting ≤ levels) (faults (action limit levels n)) := by
  induction levels generalizing levels' n with
  | zero =>
      cases levels' <;>
        exact actionOver_onlyDeep hr hn h (fun m hm hmr => condition_onlyDeep (hn.node hm) hmr)
          fun m _ _ _ => .single (Nat.not_lt_zero _)
  | succ levels ih =>
      cases levels' with
      | zero =>
          exact actionOver_onlyDeep hr hn h (fun m hm hmr => condition_onlyDeep (hn.node hm) hmr)
            fun m _ _ hm => by cases hm
      | succ levels' =>
          apply actionOver_onlyDeep hr hn h fun m hm hmr => condition_onlyDeep (hn.node hm) hmr
          intro m hm hmr hok
          -- The body lies one level deeper, with one level less on both sides.
          refine (statements_onlyDeep hmr (hn.node hm) (blind_action _ _) (blind_action _ _) hok
            (fun k hk hkr => condition_onlyDeep hk hkr) fun k hk hkr hok => ?_).congr
              Nat.lt_succ_iff.symm
          exact ih hkr hk hok

/-! ## Definitions -/

theorem trigger_onlyDeep (hr : n.rule = .triggerDef) (hn : n.Every (fun m => m.isFilled) T)
    (h : faults (trigger limit' n) = []) :
    OnlyDeep limit (n.nesting ≤ limit) (faults (trigger limit n)) := by
  obtain ⟨b, hb⟩ := Node.exists_body hn.here (by simp [hr])
  rw [faults_trigger hr hn hb] at h ⊢
  refine (statements_onlyDeep hb.rule (hn.node hb.mem) (blind_action _ _) (blind_action _ _) h
    (fun m hm hmr => condition_onlyDeep hm hmr) fun m hm hmr => action_onlyDeep hmr hm).congr ?_
  exact (Node.nesting_le_of_trigger hr hn hb).symm

theorem definition_of_not_trigger (hr : n.rule ≠ .triggerDef) :
    definition limit n = definition limit' n := by
  unfold definition
  split <;> first | rfl | exact absurd ‹_› hr

theorem definition_onlyDeep (hr : n.rule ∈ Rule.definitions) (hn : n.Every (fun m => m.isFilled) T)
    (h : faults (definition limit' n) = []) :
    OnlyDeep limit (n.nesting ≤ limit) (faults (definition limit n)) := by
  by_cases htrigger : n.rule = .triggerDef
  · rw [faults_definition htrigger] at h ⊢
    exact trigger_onlyDeep htrigger hn h
  · have hflat : n.rule.isFlat := by
      have hall : Rule.definitions.all fun r => r = .triggerDef || r.isFlat := by decide
      simpa [htrigger] using List.all_eq_true.mp hall _ hr
    have hsame : definition limit n = definition limit' n := definition_of_not_trigger htrigger
    rw [hsame, h]
    exact .nil ((Node.nesting_of_flat hn hflat).trans_le (Nat.zero_le _))

/-! ## Enough levels -/

/-- A fault of which it is not known that it is about something else than depth. -/
def IsDeep (f : ShapeFault) : Prop :=
  ∃ value span, f = .outOfRange "nesting depth" value span

/-- Faults about depth are about the limit there is. -/
theorem legible_of_filled (limit : Nat) (hn : n.Every (fun m => m.isFilled) T) :
    n.Legible ⟨fun f => IsDeep f → ∃ m, f = tooDeep limit m, fun _ => True, fun _ => True,
      fun _ => True, limit⟩ := by
  refine hn.mono (fun m hm => ⟨hm, trivial, ?_⟩) fun t _ => ?_
  · exact ⟨nofun, nofun, nofun, fun _ => ⟨m, rfl⟩⟩
  · refine ⟨nofun, fun what hwhat value => ?_, fun _ => trivial, fun _ _ => trivial⟩
    rintro ⟨_, _, ⟨⟩⟩
    simp [Token.measures] at hwhat

theorem tooDeep_ne (m k : Node) : tooDeep 0 m ≠ tooDeep 1 k := by
  intro h
  injection h with _ h _
  revert h
  decide

/-- Where there are enough levels for a definition, none of its faults is about depth: it would be the
same for two limits. -/
theorem definition_of_nesting_le (hr : n.rule ∈ Rule.definitions)
    (hn : n.Every (fun m => m.isFilled) T) (h : n.nesting ≤ limit) :
    ∀ f ∈ faults (definition limit n), ¬IsDeep f := by
  suffices hall : ∀ l, ∀ f ∈ faults (definition limit n), IsDeep f → ∃ m, f = tooDeep l m by
    intro f hf hdeep
    obtain ⟨m, rfl⟩ := hall 0 f hf hdeep
    obtain ⟨k, hk⟩ := hall 1 _ hf hdeep
    exact tooDeep_ne m k hk
  intro l
  by_cases htrigger : n.rule = .triggerDef
  · obtain ⟨b, hb⟩ := Node.exists_body hn.here (by simp [htrigger])
    have hle : b.nesting ≤ limit := (Node.nesting_le_of_trigger htrigger hn hb).mp h
    have hsame : statements (condition limit limit) (action limit limit) b =
        statements (condition l limit) (action l limit) b :=
      statements_of_nesting_le (hn.node hb.mem) hle hle
    rw [faults_definition htrigger, faults_trigger htrigger hn hb, hsame]
    exact (statements_collects hb.rule (legible_of_filled l (hn.node hb.mem))
      (fun m hmr hm => condition_gives hmr hm) fun m hmr hm => action_collects hmr hm).faults
  · have hsame : definition limit n = definition l n := definition_of_not_trigger htrigger
    rw [hsame]
    exact (definition_collects hr (legible_of_filled l hn)).faults

end Shape

namespace Built

open Shape

/-- A tree that is built with some limit and no fault is built with every limit up to how much nesting
there is in it; with a lower limit all that is at fault is that something lies too deep. -/
theorem ofTree_onlyDeep {x y : Settings} {tree : Tree} (hr : tree.root.rule = .sourceFile)
    (hn : tree.root.Every (fun m => m.isFilled) T) (h : (ofTree x tree).faults = []) :
    OnlyDeep y.maxNesting (tree.root.nesting ≤ y.maxNesting) (ofTree y tree).faults := by
  have hrow := tree.root.filled_row hn
  rw [hr] at hrow
  have hbuilt (z : Settings) : (ofTree z tree).faults =
      tree.root.nodes.flatMap fun n => Shape.faults (Shape.definition z.maxNesting n) := by
    simp only [← faults_ofNode]
    exact faults_ofNodes _ _
  rw [hbuilt, List.flatMap_eq_nil_iff] at h
  rw [hbuilt]
  refine (OnlyDeep.flatMap fun m hm => ?_).congr
    (Node.nesting_le_of_not_nests (by rw [hr]; decide)).symm
  exact definition_onlyDeep (hrow.nodes m hm).1 (hn.node hm) (h m hm)

end Built

end Storyworld
