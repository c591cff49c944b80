import Storyworld.Proofs.Shape.Definitions

namespace Storyworld.Shape

/-! Building triggers from nodes that fill their slots: conditions, what happens, and when. -/

variable {E : Expected} {n : Node} {α : Type}

/-! ## Conditions -/

theorem chance_gives {value : Int64} {span : Span}
    (h : ∀ what ∈ Token.measures, ∀ value, E.fault (.outOfRange what value span)) :
    Gives E.fault (chance value span) fun _ => True := by
  unfold chance
  split
  · exact .done trivial
  · exact .fail (h _ (by simp [Token.measures]) _)

theorem query_gives (hr : n.rule ∈ Rule.queries) (h : n.Legible E) :
    Gives E.fault (query n) (·.Named E.name) := by
  have hrow := h.row
  unfold query
  split <;> rename_i hrule
  all_goals try rw [hrule] at hrow
  any_goals exact hrow.parts (.id_done fun _ hi => hi)
  any_goals exact hrow.parts (.id_id_done fun _ _ hi hj => ⟨hi, hj⟩)
  · refine hrow.parts (Reads.id.bind fun _ hnpc => Reads.child.bind fun _ hm => ?_)
    exact (ReadsOf.lift (lenientMood_gives hm.1 hm.2)).bind fun _ hmood => .done ⟨hnpc, hmood⟩
  · refine hrow.parts (Reads.number.bind fun p hp => ?_)
    exact (ReadsOf.lift (chance_gives hp)).bind fun _ _ => .done trivial
  · refine hrow.parts (Reads.id.bind fun _ hspinner => Reads.childOf?.bind fun list? hlist => ?_)
    cases list? with
    | none => exact .done ⟨hspinner, by simp⟩
    | some list =>
        obtain ⟨hlistRule, hlegible⟩ := hlist list rfl
        refine (ReadsOf.lift (ids_gives (List.mem_singleton.mp hlistRule) hlegible)).bind
          fun _ hrooms => .done ⟨hspinner, ?_⟩
        simpa using hrooms
  · refine hrow.parts (Reads.child.bind fun _ hlist => ?_)
    exact (ReadsOf.lift (ids_gives (List.mem_singleton.mp hlist.1) hlist.2)).bind fun _ hrooms =>
      .done hrooms
  · simp_all [Rule.queries]

theorem conditionOver_gives {member : Node → Except ShapeFault Condition}
    (hr : n.rule ∈ Rule.conditions) (h : n.Legible E)
    (hmember : ∀ m, m.rule ∈ Rule.conditions → m.Legible E →
      Gives E.fault (member m) (·.Named E.name)) :
    Gives E.fault (conditionOver member n) (·.Named E.name) := by
  unfold conditionOver
  split
  · rename_i hgroup
    have hgroup' : n.rule = .condAny ∨ n.rule = .condAll := by simpa using hgroup
    have hrow : Row E [.many (.node Rule.conditions)] n.children := by
      have hrow := h.row
      rcases hgroup' with hrule | hrule <;> simpa only [hrule, Rule.slots] using hrow
    refine (Gives.mapM (R := (·.Named E.name)) fun m hm => ?_).bind fun members hmembers => ?_
    · obtain ⟨hm, hlegible⟩ := hrow.nodes m hm
      exact hmember m hm hlegible
    · have hall : Condition.AllNamed E.name members := (Condition.allNamed_iff _).mpr hmembers
      refine Gives.ite (fun _ => .fail (h.allows.empty _)) fun _ => .done ?_
      split <;> exact hall
  · rename_i hgroup
    have hquery : n.rule ∈ Rule.queries := by
      have hrule : n.rule ∈ Rule.groups ∨ n.rule ∈ Rule.queries := List.mem_append.mp hr
      exact hrule.resolve_left (by simpa [Rule.groups] using hgroup)
    exact (query_gives hquery h).bind fun _ hq => .done hq

theorem condition_gives {levels : Nat} (hr : n.rule ∈ Rule.conditions)
    (h : n.Legible E) : Gives E.fault (condition E.limit levels n) (·.Named E.name) := by
  induction levels generalizing n with
  | zero => exact conditionOver_gives hr h fun m _ hm => .fail hm.allows.tooDeep
  | succ levels ih => exact conditionOver_gives hr h fun m hmr hm => ih hmr hm

/-! ## Effects -/

theorem effect_gives (hr : n.rule ∈ Rule.effects) (h : n.Legible E) :
    Gives E.fault (effect n) (·.Named E.name) := by
  have hrow := h.row
  unfold effect
  split <;> rename_i hrule
  all_goals try rw [hrule] at hrow
  · exact hrow.parts (Reads.string.bind fun _ _ => .done trivial)
  · exact hrow.parts (.id_done fun _ hi => hi)
  · exact hrow.parts (.id_done fun _ hi => hi)
  · exact hrow.parts (.id_done fun _ hi => hi)
  · exact hrow.parts (.id_done fun _ hi => hi)
  · refine hrow.parts (Reads.id.bind fun _ hi => ?_)
    exact (countIn?_reads rfl (by simp [Token.measures])).bind fun _ _ => .done hi
  · refine hrow.parts (Reads.string.bind fun _ _ => width?_reads.bind fun _ _ => ?_)
    exact .id_done fun _ hi => hi
  · exact hrow.parts (.id_id_done fun _ _ hi hj => ⟨hi, hj⟩)
  · exact hrow.parts (.id_id_done fun _ _ hi hj => ⟨hi, hj⟩)
  · exact hrow.parts (.id_id_done fun _ _ hi hj => ⟨hi, hj⟩)
  · exact hrow.parts (.id_id_done fun _ _ hi hj => ⟨hi, hj⟩)
  · exact hrow.parts (.id_done fun _ hi => hi)
  · exact hrow.parts (.id_done fun _ hi => hi)
  · exact hrow.parts (.id_id_done fun _ _ hi hj => ⟨hi, hj⟩)
  · exact hrow.parts (.id_done fun _ hi => hi)
  · exact hrow.parts (.id_done fun _ hi => hi)
  · refine hrow.parts (Reads.number.bind fun _ _ => ?_)
    exact (stringIn?_reads rfl).bind fun _ _ => .done trivial
  · exact hrow.parts (.id_done fun _ hi => hi)
  · exact hrow.parts (.id_done fun _ hi => hi)
  · exact hrow.parts (Reads.id.bind fun _ hi => Reads.wordOrString.bind fun _ _ => .done hi)
  · exact hrow.parts (Reads.id.bind fun _ hi => Reads.wordOrString.bind fun _ _ => .done hi)
  · refine hrow.parts (Reads.id.bind fun _ hi => Reads.id.bind fun _ hj => ?_)
    exact Reads.wordOrString.bind fun _ _ => .done ⟨hi, hj⟩
  · exact hrow.parts (.id_done fun _ hi => hi)
  · exact hrow.parts (Reads.id.bind fun _ hi => Reads.string.bind fun _ _ => .done hi)
  · exact hrow.parts (Reads.id.bind fun _ hi => Reads.string.bind fun _ _ => .done hi)
  · exact hrow.parts (.id_done fun _ hi => hi)
  · exact hrow.parts (Reads.id.bind fun _ hi => Reads.string.bind fun _ _ => .done hi)
  · exact hrow.parts (Reads.id.bind fun _ hi => Reads.boolean.bind fun _ _ => .done hi)
  · refine hrow.parts (Reads.id.bind fun _ hnpc => Reads.child.bind fun _ hm => ?_)
    exact (ReadsOf.lift (lenientMood_gives hm.1 hm.2)).bind fun _ hmood => .done ⟨hnpc, hmood⟩
  · exact hrow.parts (Reads.string.bind fun _ _ => .done trivial)
  · exact hrow.parts (.id_done fun _ hi => hi)
  · exact hrow.parts (.id_id_done fun _ _ hi hj => ⟨hi, hj⟩)
  · refine hrow.parts (Reads.id.bind fun _ hi => Reads.id.bind fun _ hj => ?_)
    exact Reads.string.bind fun _ _ => .done ⟨hi, hj⟩
  · refine hrow.parts (Reads.id.bind fun _ hi => (Reads.token fun _ => rfl).bind fun t ht => ?_)
    exact (ReadsOf.lift (containerState_gives ht.2)).bind fun _ _ => .done hi
  · exact hrow.parts (.id_done fun _ hi => hi)
  · simp_all [Rule.effects]

theorem patchStatement_collects {patch : ItemPatch} (hpatch : patch.Named E.name)
    (hr : n.rule ∈ Rule.patches) (h : n.Legible E) :
    Collects E.fault (patchStatement patch n) (·.Named E.name) := by
  have hrow := h.row
  have hset {what : String} : E.fault (.repeated what n.span) := h.allows.repeated _
  unfold patchStatement
  split <;> rename_i hrule
  all_goals try rw [hrule] at hrow
  any_goals
    exact (Collects.lift (hrow.parts .string)).bind fun _ _ => .setOnce hset hpatch hpatch
  any_goals
    exact (Collects.lift (hrow.parts .boolean)).bind fun _ _ => .setOnce hset hpatch hpatch
  · refine (Collects.lift (hrow.parts (.token fun _ => rfl))).bind fun t ht => ?_
    refine (Collects.lift (containerPatch_gives ht.2)).bind fun _ _ => ?_
    exact .setOnce hset hpatch hpatch
  · refine (Collects.lift (hrow.parts .child)).bind fun m hm => ?_
    refine (Collects.lift (ability_gives (List.mem_singleton.mp hm.1) hm.2)).bind fun _ ha => ?_
    exact .done ⟨forall_mem_concat hpatch.1 ha, hpatch.2⟩
  · refine (Collects.lift (hrow.parts .child)).bind fun m hm => ?_
    refine (Collects.lift (ability_gives (List.mem_singleton.mp hm.1) hm.2)).bind fun _ ha => ?_
    exact .done ⟨hpatch.1, forall_mem_concat hpatch.2 ha⟩
  · simp_all [Rule.patches]

theorem modifyItem_collects (hr : n.rule = .actModifyItem) (h : n.Legible E) :
    Collects E.fault (modifyItem n) (·.Named E.name) := by
  have hrow := h.row
  rw [hr] at hrow
  refine (Collects.lift (hrow.head .id)).bind fun p hp => ?_
  refine (Collects.foldlM (R := fun patch : ItemPatch => patch.Named E.name) ⟨by simp, by simp⟩
    fun patch hpatch m hm => ?_).bind fun _ hpatch => .done ⟨hp.1, hpatch⟩
  obtain ⟨hm, hlegible⟩ := hp.2.nodes m hm
  exact patchStatement_collects hpatch hm hlegible

/-! ## Schedules -/

theorem retryPolicy_gives (hr : n.rule ∈ Rule.retries) (h : n.Legible E) :
    Gives E.fault (retryPolicy n) fun _ => True := by
  have hrow := h.row
  unfold retryPolicy
  split
  · exact .done trivial
  · exact .done trivial
  · have hrule : n.rule = .onFalseRetryAfter := by simp_all [Rule.retries]
    rw [hrule] at hrow
    exact hrow.parts ((Reads.count (by simp [Token.measures])).bind fun _ _ => .done trivial)

section

variable {F : ShapeFault → Prop} {P : Element → Prop}

/-- What it takes to read the head of a schedule: its turns, what is done where its guard fails, and
its note. -/
structure ReadsHead (F : ShapeFault → Prop) (P : Element → Prop) : Prop where
  turns : ∀ {slots : List Slot},
    ReadsOf F P (.one .number :: slots) slots (count "schedule turns") fun _ => True
  retry : ∀ m, m.rule ∈ Rule.retries → P (.node m) → Gives F (retryPolicy m) fun _ => True
  note : ∀ m, m.rule = .note → P (.node m) → Gives F (m.parts (string "note")) fun _ => True

theorem anchor_reads {words : List String} {slots : List Slot} :
    ReadsOf F P (.one (.choice words) :: slots) slots anchor fun _ => True :=
  (ReadsOf.word fun _ => rfl).bind fun _ _ => .done trivial

/-- What is told of the parts of a guarded schedule: its guard and its body. -/
def PartsTell (P : Element → Prop) (p : ScheduleParts) : Prop :=
  (p.guard.rule ∈ Rule.conditions ∧ P (.node p.guard)) ∧
    p.body.rule = .triggerBlock ∧ P (.node p.body)

namespace ReadsHead

variable (h : ReadsHead F P)

include h

theorem plain : ReadsOf F P Rule.actSchedule.slots []
    (do let anchor ← anchor
        let turns ← count "schedule turns"
        let note ← stringIn? .note "note"
        let bodyNode ← child "schedule body"
        return (anchor, turns, note, bodyNode))
    fun p => p.2.2.2.rule = .triggerBlock ∧ P (.node p.2.2.2) := by
  refine anchor_reads.bind fun _ _ => h.turns.bind fun _ _ => ?_
  refine (option_readsOf h.note).bind fun _ _ => ReadsOf.child.bind fun m hm => .done ?_
  exact ⟨List.mem_singleton.mp hm.1, hm.2⟩

theorem guardedEnd {anchor : Anchor} {turns : UInt32} {g : Node} {retry : Option RetryPolicy}
    (hg : g.rule ∈ Rule.conditions ∧ P (.node g)) :
    ReadsOf F P [.optional (.node [.note]), .one (.node [.triggerBlock])] []
      (do let note ← stringIn? .note "note"
          let body ← child "schedule body"
          return { anchor, turns, guard := g, retry, note, body }) (PartsTell P) := by
  refine (option_readsOf h.note).bind fun _ _ => ReadsOf.child.bind fun m hm => .done ?_
  exact ⟨hg, List.mem_singleton.mp hm.1, hm.2⟩

theorem guarded : ReadsOf F P Rule.actScheduleIf.slots [] scheduleParts (PartsTell P) := by
  refine anchor_reads.bind fun _ _ => h.turns.bind fun _ _ => ?_
  refine ReadsOf.child.bind fun g hg => ReadsOf.childOf?.bind fun retry? hretry => ?_
  cases retry? with
  | none => exact (ReadsOf.done (Q := fun _ => True) trivial).bind fun _ _ => h.guardedEnd hg
  | some r =>
      obtain ⟨hr, hP⟩ := hretry r rfl
      refine (ReadsOf.lift (h.retry r hr hP)).bind fun _ _ => ?_
      exact (ReadsOf.done (Q := fun _ => True) trivial).bind fun _ _ => h.guardedEnd hg

end ReadsHead

end

/-- Parts that are as expected. -/
theorem Reads.scheduleHead : ReadsHead E.fault fun c =>
    c.Every (fun m => m.isFilled ∧ E.place m.span ∧ m.Allows E) (Token.Allows E) where
  turns := Reads.count (by simp [Token.measures])
  retry := fun _ hr hm => retryPolicy_gives hr (Element.every_node.mp hm)
  note := fun _ hr hm => (hr ▸ Node.Legible.row (Element.every_node.mp hm)).parts .string

/-- What is told of an action: where its deeds stand, and what it names. -/
def ActionTells (E : Expected) (a : Action) : Prop :=
  (∀ s ∈ a.spans, E.place s) ∧ a.Named E.name

/-- What is told of a deed. -/
def DeedTells (E : Expected) (d : Deed) : Prop :=
  (∀ s ∈ d.spans, E.place s) ∧ d.Named E.name

/-- What is told of a statement. -/
def StatementTells (E : Expected) (m : Statement) : Prop :=
  (∀ s ∈ m.spans, E.place s) ∧ m.Named E.name

/-- What is told of a body, statement by statement. -/
def BodyTells (E : Expected) (body : List Statement) : Prop :=
  ∀ m ∈ body, StatementTells E m

theorem BodyTells.schedule {anchor : Anchor} {turns : UInt32} {g : Option Guard}
    {note : Option String} {statements : List Statement} (h : BodyTells E statements)
    (hg : ∀ x ∈ g, x.condition.Named E.name) :
    ActionTells E (.schedule anchor turns g note statements) :=
  ⟨Statement.forall_mem_spansIn.mpr fun m hm => (h m hm).1, hg,
    (Statement.allNamed_iff _).mpr fun m hm => (h m hm).2⟩

variable {guard : Node → Except ShapeFault Condition} {body : Node → Collecting (List Statement)}

theorem plainSchedule_collects (hr : n.rule = .actSchedule) (h : n.Legible E)
    (hbody : ∀ m, m.rule = .triggerBlock → m.Legible E → Collects E.fault (body m) (BodyTells E)) :
    Collects E.fault (plainSchedule body n) (ActionTells E) := by
  have hrow := h.row
  rw [hr] at hrow
  refine (Collects.lift (RowOf.parts hrow Reads.scheduleHead.plain)).bind fun p hp => ?_
  refine (hbody _ hp.1 (Element.every_node.mp hp.2)).bind fun _ hstatements => .done ?_
  exact hstatements.schedule (by simp)

theorem guardedSchedule_collects (hr : n.rule = .actScheduleIf) (h : n.Legible E)
    (hguard : ∀ m, m.rule ∈ Rule.conditions → m.Legible E →
      Gives E.fault (guard m) (·.Named E.name))
    (hbody : ∀ m, m.rule = .triggerBlock → m.Legible E → Collects E.fault (body m) (BodyTells E)) :
    Collects E.fault (guardedSchedule guard body n) (ActionTells E) := by
  have hrow := h.row
  rw [hr] at hrow
  refine (Collects.lift (RowOf.parts hrow Reads.scheduleHead.guarded)).bind fun p hp => ?_
  obtain ⟨⟨hgr, hg⟩, hbr, hb⟩ := hp
  rw [Element.every_node] at hg hb
  split
  · rename_i condition hcondition
    have hnamed : condition.Named E.name := (hguard _ hgr hg).ok hcondition
    refine (hbody _ hbr hb).bind fun _ hstatements => .done (hstatements.schedule ?_)
    simpa using hnamed
  · rename_i fault hfault
    refine Collects.bind (Q := fun _ => True) ?_ fun _ _ => .fail ((hguard _ hgr hg).error hfault)
    exact (hbody _ hbr hb).keep.bind fun _ _ => .done trivial

/-! ## Actions -/

theorem actionOver_collects (hr : n.rule ∈ Rule.actions) (h : n.Legible E)
    (hguard : ∀ m, m.rule ∈ Rule.conditions → m.Legible E →
      Gives E.fault (guard m) (·.Named E.name))
    (hbody : ∀ m, m.rule = .triggerBlock → m.Legible E → Collects E.fault (body m) (BodyTells E)) :
    Collects E.fault (actionOver guard body n) (ActionTells E) := by
  have heffect {e : Effect} (he : e.Named E.name) : ActionTells E (.effect e) :=
    ⟨by simp [Action.spans], he⟩
  unfold actionOver
  split
  · exact (modifyItem_collects ‹_› h).bind fun _ he => .done (heffect he)
  · exact plainSchedule_collects ‹_› h hbody
  · exact guardedSchedule_collects ‹_› h hguard hbody
  · have hrule : n.rule ∈ Rule.effects := by
      rcases List.mem_append.mp hr with hrule | hrule
      · simp_all
      · exact hrule
    exact (Collects.lift (effect_gives hrule h)).bind fun _ he => .done (heffect he)

/-! ## Statements -/

variable {ask : Node → Except ShapeFault Condition} {act : Node → Collecting Action}

theorem deed_collects (hr : n.rule = .doStmt) (h : n.Legible E)
    (haction : ∀ m, m.rule ∈ Rule.actions → m.Legible E → Collects E.fault (act m) (ActionTells E)) :
    Collects E.fault (deed act n) (DeedTells E) := by
  have hrow := h.row
  rw [hr] at hrow
  refine (Collects.lift (hrow.parts .child)).bind fun m hm => ?_
  refine (haction m hm.1 hm.2).bind fun a ha => .done ⟨?_, ha.2⟩
  simpa [Deed.spans] using ⟨h.span, ha.1⟩

theorem branch_collects (hr : n.rule = .condBlock) (h : n.Legible E)
    (hcondition : ∀ m, m.rule ∈ Rule.conditions → m.Legible E →
      Gives E.fault (ask m) (·.Named E.name))
    (haction : ∀ m, m.rule ∈ Rule.actions → m.Legible E → Collects E.fault (act m) (ActionTells E)) :
    Collects E.fault (branch ask act n) (StatementTells E) := by
  have hrow := h.row
  rw [hr] at hrow
  refine (Collects.lift (hrow.head .child)).bind fun p hp => ?_
  refine (Collects.keepAll (R := DeedTells E) fun m hm => ?_).bind fun deeds hdeeds => ?_
  · obtain ⟨hm, hlegible⟩ := hp.2.nodes m hm
    exact deed_collects (List.mem_singleton.mp hm) hlegible haction
  refine (Collects.lift (hcondition _ hp.1.1 hp.1.2)).bind fun c hc => ?_
  split
  · exact (Collects.fail (h.allows.empty _)).bind fun _ => False.elim
  · refine .done ⟨?_, hc, (Deed.allNamed_iff _).mpr fun d hd => (hdeeds d hd).2⟩
    simpa [Statement.spans, Deed.forall_mem_spansIn] using ⟨h.span, fun d hd => (hdeeds d hd).1⟩

theorem statement_collects (hr : n.rule ∈ Rule.statements) (h : n.Legible E)
    (hcondition : ∀ m, m.rule ∈ Rule.conditions → m.Legible E →
      Gives E.fault (ask m) (·.Named E.name))
    (haction : ∀ m, m.rule ∈ Rule.actions → m.Legible E → Collects E.fault (act m) (ActionTells E)) :
    Collects E.fault (statement ask act n) (StatementTells E) := by
  unfold statement
  split
  · refine (deed_collects ‹_› h haction).bind fun d hd => .done ⟨?_, hd.2⟩
    simpa [Statement.spans] using hd.1
  · exact branch_collects ‹_› h hcondition haction
  · simp_all [Rule.statements]

theorem statements_collects (hr : n.rule = .triggerBlock) (h : n.Legible E)
    (hcondition : ∀ m, m.rule ∈ Rule.conditions → m.Legible E →
      Gives E.fault (ask m) (·.Named E.name))
    (haction : ∀ m, m.rule ∈ Rule.actions → m.Legible E → Collects E.fault (act m) (ActionTells E)) :
    Collects E.fault (statements ask act n) (BodyTells E) := by
  have hrow := h.row
  rw [hr] at hrow
  unfold statements
  split
  · exact (Collects.fail (h.allows.empty _)).bind fun _ => False.elim
  · refine Collects.keepAll fun m hm => ?_
    obtain ⟨hm, hlegible⟩ := hrow.nodes m hm
    exact statement_collects hm hlegible hcondition haction

theorem action_collects {levels : Nat} (hr : n.rule ∈ Rule.actions) (h : n.Legible E) :
    Collects E.fault (action E.limit levels n) (ActionTells E) := by
  induction levels generalizing n with
  | zero =>
      refine actionOver_collects hr h (fun m hmr hm => condition_gives hmr hm) fun m _ hm => ?_
      exact .fail hm.allows.tooDeep
  | succ levels ih =>
      refine actionOver_collects hr h (fun m hmr hm => condition_gives hmr hm) fun m hmr hm => ?_
      exact statements_collects hmr hm (fun k hkr hk => condition_gives hkr hk)
        fun k hkr hk => ih hkr hk

/-! ## Triggers -/

section

variable {F : ShapeFault → Prop} {P : Element → Prop} {name : String → Prop}

theorem notes_gives {modifiers : List Node} (hmodifiers : ∀ m ∈ modifiers, P (.node m))
    (hnote : ∀ m, m.rule = .note → P (.node m) → Gives F (m.parts (string "note")) fun _ => True) :
    Gives F (notes modifiers) fun _ => True := by
  refine (Gives.mapM (R := fun _ => True) fun m hm => ?_).mono fun _ _ => trivial
  obtain ⟨hm, hrule⟩ := List.mem_filter.mp hm
  exact hnote m (of_decide_eq_true hrule) (hmodifiers m hm)

/-- What a trigger is made of: its event is built and its block is found. -/
theorem triggerHead_reads
    (hnote : ∀ m, m.rule = .note → P (.node m) → Gives F (m.parts (string "note")) fun _ => True)
    (hevent : ∀ m, m.rule ∈ Rule.events → P (.node m) → Gives F (event m) (·.Named name)) :
    ReadsOf F P Rule.triggerDef.slots []
      (do let name ← string "trigger name"
          let modifiers ← childrenOf [.onlyOnce, .note]
          let notes ← notes modifiers
          let event ← event (← child "trigger event")
          let block ← child "trigger block"
          return (name, modifiers, notes, event, block))
      fun p => p.2.2.2.1.Named name ∧ p.2.2.2.2.rule = .triggerBlock ∧ P (.node p.2.2.2.2) := by
  refine ReadsOf.string.bind fun _ _ => ReadsOf.childrenOf.bind fun modifiers hmodifiers => ?_
  refine (ReadsOf.lift (notes_gives (fun m hm => (hmodifiers m hm).2) hnote)).bind fun _ _ => ?_
  refine ReadsOf.child.bind fun e he => (ReadsOf.lift (hevent e he.1 he.2)).bind fun _ hnamed => ?_
  exact ReadsOf.child.bind fun m hm => .done ⟨hnamed, List.mem_singleton.mp hm.1, hm.2⟩

end

theorem trigger_collects (hr : n.rule = .triggerDef) (h : n.Legible E) :
    Collects E.fault (trigger E.limit n) fun t => (∀ s ∈ t.spans, E.place s) ∧ t.Named E.name := by
  have hrow := h.row
  rw [hr] at hrow
  refine (Collects.lift (RowOf.parts hrow (triggerHead_reads Reads.scheduleHead.note fun m hmr hm =>
    event_gives hmr (Element.every_node.mp hm)))).bind fun p hp => ?_
  refine (statements_collects hp.2.1 (Element.every_node.mp hp.2.2)
    (fun m hmr hm => condition_gives hmr hm) fun m hmr hm => action_collects hmr hm).bind
      fun block hblock => .done ⟨?_, hp.1, ?_⟩
  · intro s hs
    rcases List.mem_cons.mp hs with rfl | hs
    · exact h.span
    · exact Statement.forall_mem_spansIn.mpr (fun m hm => (hblock m hm).1) s hs
  · exact fun m hm => (hblock m hm).2

end Storyworld.Shape
