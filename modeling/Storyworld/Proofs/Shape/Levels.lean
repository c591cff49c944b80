import Storyworld.Proofs.Shape.Triggers
import Storyworld.Proofs.Tree.Nesting

namespace Storyworld

/-! The levels that building allows. How many there are makes no difference to a node that needs no
more of them. -/

/-- A part of a node, and a tree whose nodes fill their slots. -/
def Node.FilledPart (T : Token → Prop) (n : Node) (c : Element) : Prop :=
  c ∈ n.children ∧ c.Every (fun m => m.isFilled) T

variable {T : Token → Prop} {n : Node}

theorem Node.filled_row (h : n.Every (fun m => m.isFilled) T) :
    RowOf (n.FilledPart T) n.rule.slots n.children :=
  ⟨h.here, fun _ hc => ⟨hc, h.child hc⟩⟩

namespace Shape

variable {α β : Type} {limit limit' levels levels' : Nat}

/-! ## The same building below -/

theorem lift_bind_congr {x : Except ShapeFault α} {f g : α → Collecting β} {Q : α → Prop}
    (hx : Gives (fun _ => True) x Q) (h : ∀ a, Q a → f a = g a) :
    (liftM x >>= f) = (liftM x >>= g) := by
  cases x with
  | error fault => rfl
  | ok a => exact h a (hx.ok rfl)

theorem mapM_congr {M : Type → Type} [Monad M] [LawfulMonad M] {f g : α → M β} {as : List α}
    (h : ∀ a ∈ as, f a = g a) : as.mapM f = as.mapM g := by
  induction as with
  | nil => rfl
  | cons a as ih =>
      rw [List.mapM_cons, List.mapM_cons, h a (by simp), ih fun a' ha' => h a' (by simp [ha'])]

theorem keepAll_congr {f g : α → Collecting β} {as : List α} (h : ∀ a ∈ as, f a = g a) :
    keepAll f as = keepAll g as := by
  unfold keepAll
  rw [mapM_congr fun a ha => congrArg keep (h a ha)]

section

variable {guard guard' member member' : Node → Except ShapeFault Condition}
  {body body' : Node → Collecting (List Statement)} {act act' : Node → Collecting Action}

theorem conditionOver_congr (h : n.rule ∈ Rule.groups → ∀ m ∈ n.nodes, member m = member' m) :
    conditionOver member n = conditionOver member' n := by
  unfold conditionOver
  split
  · rename_i hgroup
    rw [mapM_congr (h (by simpa [Rule.groups] using hgroup))]
  · rfl

theorem deed_congr (hr : n.rule = .doStmt) (hn : n.Every (fun m => m.isFilled) T)
    (hact : ∀ k ∈ n.family, act k = act' k) : deed act n = deed act' n := by
  have hrow := n.filled_row hn
  rw [hr] at hrow
  refine lift_bind_congr (hrow.parts .child) fun a ha => ?_
  have ha : a ∈ n.nodes := Node.mem_nodes.mpr ha.2.1
  rw [hact a (Node.mem_family.mpr (.inr ⟨a, ha, a.self_mem_family⟩))]

theorem branch_congr (hr : n.rule = .condBlock) (hn : n.Every (fun m => m.isFilled) T)
    (hguard : ∀ k ∈ n.family, guard k = guard' k) (hact : ∀ k ∈ n.family, act k = act' k) :
    branch guard act n = branch guard' act' n := by
  have hrow := n.filled_row hn
  rw [hr] at hrow
  refine lift_bind_congr (hrow.head .child) fun p hp => ?_
  have hbelow {k l : Node} (hk : Element.node k ∈ n.children) (hl : l ∈ k.family) : l ∈ n.family :=
    Node.mem_family.mpr (.inr ⟨k, Node.mem_nodes.mpr hk, hl⟩)
  have hdeeds : keepAll (deed act) (Element.nodes p.2) = keepAll (deed act') (Element.nodes p.2) := by
    refine keepAll_congr fun d hd => ?_
    obtain ⟨hrule, hmem, hevery⟩ := hp.2.nodes d hd
    exact deed_congr (List.mem_singleton.mp hrule) (Element.every_node.mp hevery) fun k hk =>
      hact k (hbelow hmem hk)
  dsimp only
  rw [hdeeds, hguard p.1 (hbelow hp.1.2.1 p.1.self_mem_family)]

theorem statement_congr (hn : n.Every (fun m => m.isFilled) T)
    (hguard : ∀ k ∈ n.family, guard k = guard' k) (hact : ∀ k ∈ n.family, act k = act' k) :
    statement guard act n = statement guard' act' n := by
  unfold statement
  split
  · rw [deed_congr ‹_› hn hact]
  · exact branch_congr ‹_› hn hguard hact
  · rfl

theorem statements_congr (hn : n.Every (fun m => m.isFilled) T)
    (hguard : ∀ k ∈ n.family, guard k = guard' k) (hact : ∀ k ∈ n.family, act k = act' k) :
    statements guard act n = statements guard' act' n := by
  unfold statements
  rw [keepAll_congr fun m hm => ?_]
  have hbelow {k : Node} (hk : k ∈ m.family) : k ∈ n.family := Node.mem_family.mpr (.inr ⟨m, hm, hk⟩)
  exact statement_congr (hn.node hm) (fun k hk => hguard k (hbelow hk)) fun k hk => hact k (hbelow hk)

/-- The head of a schedule is read, whatever comes of it. -/
theorem ReadsHead.any {P : Element → Prop} : ReadsHead (fun _ => True) P where
  turns := ReadsOf.number.bind fun _ _ => .lift .any
  retry := fun _ _ _ => .any
  note := fun _ _ _ => .any

theorem actionOver_congr (hn : n.Every (fun m => m.isFilled) T)
    (hguard : ∀ k ∈ n.nodes, guard k = guard' k)
    (hbody : n.rule ∈ Rule.schedules → ∀ k ∈ n.nodes, k.rule = .triggerBlock → body k = body' k) :
    actionOver guard body n = actionOver guard' body' n := by
  have hrow := n.filled_row hn
  unfold actionOver
  split
  · rfl
  · rename_i hr
    rw [hr] at hrow hbody
    refine lift_bind_congr (hrow.parts ReadsHead.any.plain) fun p hp => ?_
    dsimp only
    rw [hbody (by decide) _ (Node.mem_nodes.mpr hp.2.1) hp.1]
  · rename_i hr
    rw [hr] at hrow hbody
    refine lift_bind_congr (hrow.parts ReadsHead.any.guarded) fun p hp => ?_
    rw [hguard _ (Node.mem_nodes.mpr hp.1.2.1),
      hbody (by decide) _ (Node.mem_nodes.mpr hp.2.2.1) hp.2.1]
  · rfl

end

/-! ## Enough levels -/

theorem nesting_lt_of_group {m : Node} (hr : n.rule ∈ Rule.groups) (hm : m ∈ n.nodes) :
    m.nesting < n.nesting :=
  Node.nesting_lt hm (by simp [Rule.nests, hr])

theorem nesting_lt_of_schedule {m : Node} (hr : n.rule ∈ Rule.schedules) (hm : m ∈ n.nodes)
    (hbody : m.rule = .triggerBlock) : m.nesting < n.nesting :=
  Node.nesting_lt hm (by simp [Rule.nests, hr, hbody])

theorem condition_of_nesting_le (h : n.nesting ≤ levels) (h' : n.nesting ≤ levels') :
    condition limit levels n = condition limit' levels' n := by
  induction levels generalizing levels' n with
  | zero =>
      -- Where there are no levels there are no members.
      cases levels' <;> exact conditionOver_congr fun hgroup m hm => by
        have hlt := nesting_lt_of_group hgroup hm
        omega
  | succ levels ih =>
      cases levels' with
      | zero =>
          exact conditionOver_congr fun hgroup m hm => by
            have hlt := nesting_lt_of_group hgroup hm
            omega
      | succ levels' =>
          refine conditionOver_congr fun hgroup m hm => ?_
          have hlt := nesting_lt_of_group hgroup hm
          exact ih (by omega) (by omega)

theorem action_of_nesting_le (hn : n.Every (fun m => m.isFilled) T) (h : n.nesting ≤ levels)
    (h' : n.nesting ≤ levels') : action limit levels n = action limit' levels' n := by
  have hguard : ∀ k ∈ n.nodes, condition limit levels k = condition limit' levels' k := fun k hk =>
    have hle := Node.nesting_le_of_mem_nodes hk
    condition_of_nesting_le (hle.trans h) (hle.trans h')
  induction levels generalizing levels' n with
  | zero =>
      -- Where there are no levels there are no bodies.
      cases levels' <;> exact actionOver_congr hn hguard fun hr k hk hrule => by
        have hlt := nesting_lt_of_schedule hr hk hrule
        omega
  | succ levels ih =>
      cases levels' <;> refine actionOver_congr hn hguard fun hr k hk hrule => ?_
      · have hlt := nesting_lt_of_schedule hr hk hrule
        omega
      · -- The body lies one level deeper, with one level less on both sides.
        have hlt := nesting_lt_of_schedule hr hk hrule
        refine statements_congr (hn.node hk) (fun m hm => ?_) fun m hm => ?_
        · have hle := Node.nesting_le_of_mem_family hm
          exact condition_of_nesting_le (by omega) (by omega)
        · have hle := Node.nesting_le_of_mem_family hm
          refine ih ((hn.node hk).of_mem_family hm) (by omega) (by omega) fun g hg => ?_
          have hle' := Node.nesting_le_of_mem_nodes hg
          exact condition_of_nesting_le (by omega) (by omega)

/-- A statement is built the same way on every level that is high enough for it, whatever the limit. -/
theorem statement_of_nesting_le (hn : n.Every (fun m => m.isFilled) T) (h : n.nesting ≤ levels)
    (h' : n.nesting ≤ levels') :
    statement (condition limit levels) (action limit levels) n =
      statement (condition limit' levels') (action limit' levels') n := by
  refine statement_congr hn (fun k hk => ?_) fun k hk => ?_
  · have hle := Node.nesting_le_of_mem_family hk
    exact condition_of_nesting_le (by omega) (by omega)
  · have hle := Node.nesting_le_of_mem_family hk
    exact action_of_nesting_le (hn.of_mem_family hk) (by omega) (by omega)

theorem statements_of_nesting_le (hn : n.Every (fun m => m.isFilled) T) (h : n.nesting ≤ levels)
    (h' : n.nesting ≤ levels') :
    statements (condition limit levels) (action limit levels) n =
      statements (condition limit' levels') (action limit' levels') n := by
  refine statements_congr hn (fun k hk => ?_) fun k hk => ?_
  · have hle := Node.nesting_le_of_mem_family hk
    exact condition_of_nesting_le (by omega) (by omega)
  · have hle := Node.nesting_le_of_mem_family hk
    exact action_of_nesting_le (hn.of_mem_family hk) (by omega) (by omega)

end Shape

end Storyworld
