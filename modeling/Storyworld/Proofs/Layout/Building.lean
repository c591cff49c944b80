import Storyworld.Action.Shape
import Storyworld.Proofs.Layout.Bare
import Storyworld.Proofs.Shape.Collects

namespace Storyworld

/-! Building from the parts of nodes does not go by places. -/

namespace Shape

open Baring

/-- A result of building with the places left out. -/
def bareBuilt {α : Type} (e : α → α) : Except ShapeFault α → Except ShapeFault α
  | .ok a => .ok (e a)
  | .error fault => .error fault.bare

/-- A result of building, and the faults recorded on the way, with the places left out. -/
def bareCollected {α : Type} (e : α → α) :
    EStateM.Result ShapeFault (List ShapeFault) α → EStateM.Result ShapeFault (List ShapeFault) α
  | .ok a fs => .ok (e a) (fs.map ShapeFault.bare)
  | .error fault fs => .error fault.bare (fs.map ShapeFault.bare)

instance : Baring (Except ShapeFault) where
  Bared e p q := q = bareBuilt e p
  pure _ := rfl
  bind {α β d e p q f g} hp hf := by
    rw [hp]
    cases p with
    | ok a => exact hf a
    | error fault => rfl

instance : Baring Reading where
  Bared e p q := ∀ span es,
    q .origin (Element.bareAll es) = bareBuilt (Prod.map e Element.bareAll) (p span es)
  pure _ _ _ := rfl
  bind {α β d e p q f g} hp hf span es := by
    have hleft : (p >>= f) span es = (p span es).bind fun r => f r.1 span r.2 := rfl
    have hright : (q >>= g) .origin (Element.bareAll es) =
        (q .origin (Element.bareAll es)).bind fun r => g r.1 .origin r.2 := rfl
    rw [hleft, hright, hp]
    cases p span es with
    | ok r => exact hf r.1 span r.2
    | error fault => rfl

instance : Baring Collecting where
  Bared e p q := ∀ fs, q (fs.map ShapeFault.bare) = bareCollected e (p fs)
  pure _ _ := rfl
  bind {α β d e p q f g} hp hf fs := by
    rw [run_bind, run_bind, hp]
    cases p fs with
    | ok a fs' => exact hf a fs'
    | error fault fs' => rfl

end Shape

/-- Kinds of building that can fail; with the places left out they fail in the same way. -/
class Baring.Refusing (m : Type → Type) [Monad m] [MonadExceptOf ShapeFault m] [Baring m] :
    Prop where
  refuse {α : Type} {e : α → α} (fault : ShapeFault) :
    Bared e (throw fault : m α) (throw fault.bare)

instance : Baring.Refusing (Except ShapeFault) where
  refuse _ := rfl

instance : Baring.Refusing Shape.Reading where
  refuse _ _ _ := rfl

instance : Baring.Refusing Shape.Collecting where
  refuse _ _ := rfl

namespace Baring.Bared

/-! ## Faults -/

section

variable {m : Type → Type} [Monad m] [MonadExceptOf ShapeFault m] [Baring m] [Refusing m]
  {α : Type} {e : α → α} {n : Node}

theorem refuse {fault fault' : ShapeFault} (h : fault' = fault.bare) :
    Bared e (throw fault : m α) (throw fault') := by
  rw [h]
  exact Refusing.refuse fault

theorem misplaced (what : String) :
    Bared e (throw (n.misplaced what) : m α) (throw (n.bare.misplaced what)) :=
  refuse (by rw [Node.misplaced, Node.span_bare]; rfl)

/-- A check in front of a computation. -/
theorem checked {b : Prop} [Decidable b] {fault fault' : ShapeFault} {p q : m α}
    (h : fault' = fault.bare) (hp : Bared e p q) :
    Bared e (if b then (throw fault : m PUnit) >>= fun _ => p else p)
      (if b then (throw fault' : m PUnit) >>= fun _ => q else q) :=
  ite ((refuse (e := id) h).bind fun _ => hp) hp

end

/-! ## Between the monads -/

variable {α : Type} {e : α → α} {p q : Except ShapeFault α} {r r' : Shape.Reading α} {n : Node}

theorem lift (h : Bared e p q) : Bared e (liftM p : Shape.Reading α) (liftM q) := by
  obtain rfl : q = Shape.bareBuilt e p := h
  intro span es
  cases p <;> rfl

theorem collecting (h : Bared e p q) : Bared e (liftM p : Shape.Collecting α) (liftM q) := by
  obtain rfl : q = Shape.bareBuilt e p := h
  intro fs
  cases p <;> rfl

theorem parts (h : Bared e r r') : Bared e (n.parts r) (n.bare.parts r') := by
  have hrun := h n.span n.children
  change _ <$> _ = Shape.bareBuilt e (_ <$> _)
  rw [Node.span_bare, Node.children_bare, hrun]
  cases r n.span n.children <;> rfl

theorem head (h : Bared e r r') :
    Bared (Prod.map e Element.bareAll) (n.head r) (n.bare.head r') := by
  have hrun := h n.span n.children
  rw [← Node.span_bare n, ← Node.children_bare n] at hrun
  exact hrun

end Baring.Bared

namespace Baring.Built

open Bared

variable {α : Type} {e : α → α} {n : Node} {what : String}

/-! ## Parts -/

theorem get : Bared Element.bareAll (m := Shape.Reading) get get :=
  fun _ _ => rfl

theorem set (es : List Element) :
    Bared id (m := Shape.Reading) (set es) (set (Element.bareAll es)) :=
  fun _ _ => rfl

theorem missing : Bared e (Shape.missing what) (Shape.missing what) := by
  intro span es
  match es with
  | [] | .token t :: es => rfl
  | .node n :: es =>
      change Except.error (ShapeFault.missing what n.bare.span) = _
      rw [Node.span_bare]
      rfl

theorem token : Bared Token.bare (Shape.token what) (Shape.token what) := by
  refine get.bind fun es => ?_
  match es with
  | .token t :: rest => exact (set rest).bind fun _ => pure _
  | [] | .node n :: rest => exact missing

theorem token? : Bared (Option.map Token.bare) Shape.token? Shape.token? := by
  refine get.bind fun es => ?_
  match es with
  | .token t :: rest => exact (set rest).bind fun _ => pure _
  | [] | .node n :: rest => exact pure none

theorem child : Bared Node.bare (Shape.child what) (Shape.child what) := by
  refine get.bind fun es => ?_
  match es with
  | .node n :: rest => exact (set rest).bind fun _ => pure _
  | [] | .token t :: rest => exact missing

theorem childOf? (rules : List Rule) :
    Bared (Option.map Node.bare) (Shape.childOf? rules) (Shape.childOf? rules) := by
  refine get.bind fun es => ?_
  match es with
  | .node n :: rest =>
      exact iteOn (by rw [Node.rule_bare]) ((set rest).bind fun _ => pure _) (pure none)
  | [] | .token t :: rest => exact pure none

theorem childrenOf (rules : List Rule) :
    Bared (List.map Node.bare) (Shape.childrenOf rules) (Shape.childrenOf rules) := by
  have hisChild :
      (fun part : Element => part.node?.any fun n => rules.contains n.rule) ∘ Element.bare =
        fun part => part.node?.any fun n => rules.contains n.rule := by
    funext part
    cases part with
    | node n => simp [Element.bare, Element.node?]
    | token t => rfl
  refine get.bind fun es => ?_
  simp only [Element.bareAll_eq_map, List.dropWhile_map, List.takeWhile_map, hisChild]
  simp only [← Element.bareAll_eq_map]
  exact (set _).bind fun _ => done (Element.nodes_bareAll _)

/-! ## Values -/

theorem word : Bared id (Shape.word what) (Shape.word what) :=
  token.bind fun _ => pure _

theorem name {of : Referent} :
    Bared id (Shape.id what : Shape.Reading (Id of)) (Shape.id what) :=
  word.bind fun _ => pure _

theorem string : Bared id (Shape.string what) (Shape.string what) := by
  refine token.bind fun t => lift ?_
  have hvalue : t.bare.stringValue? = t.stringValue? := rfl
  rw [Shape.stringOf, Shape.stringOf, hvalue]
  split
  · exact pure _
  · exact refuse rfl

theorem wordOrString : Bared id (Shape.wordOrString what) (Shape.wordOrString what) :=
  token.bind fun _ => pure _

theorem boolean : Bared id (Shape.boolean what) (Shape.boolean what) := by
  refine token.bind fun t => ?_
  have hkind : t.bare.kind = t.kind := rfl
  simp only [hkind]
  split
  · exact pure _
  · exact refuse rfl

/-- A value and a place. -/
def barePlace : α × Span → α × Span :=
  Prod.map id fun _ => .origin

theorem number : Bared barePlace (Shape.number what) (Shape.number what) := by
  refine token.bind fun t => ?_
  have htext : t.bare.text = t.text := rfl
  simp only [htext]
  split
  · exact pure _
  · exact refuse rfl

theorem countOf (value : Int64) (span : Span) :
    Bared id (Shape.countOf what value span) (Shape.countOf what value .origin) := by
  unfold Shape.countOf
  split
  · exact pure _
  · exact refuse rfl

theorem count : Bared id (Shape.count what) (Shape.count what) :=
  number.bind fun _ => (countOf _ _).lift

theorem positive : Bared id (Shape.positive what) (Shape.positive what) := by
  exact number.bind fun _ => (countOf _ _).lift.bind fun _ => checked rfl (pure _)

theorem ids {of : Referent} :
    Bared id (n.ids what : Except ShapeFault (List (Id of))) (n.bare.ids what) := by
  refine iteOn (by simp) (refuse (by rw [Node.span_bare]; rfl)) (done ?_)
  simp [Token.bare]

/-! ## Words out of closed sets -/

theorem meaning {expected : List String} {ofWord? : String → Option α} (t : Token) :
    Bared id (Shape.meaning what expected ofWord? t)
      (Shape.meaning what expected ofWord? t.bare) := by
  have htext : t.bare.text = t.text := rfl
  rw [Shape.meaning, Shape.meaning, htext]
  split
  · exact pure _
  · exact refuse rfl

theorem strictMood : Bared id (Shape.strictMood n) (Shape.strictMood n.bare) := by
  refine parts (token.bind fun t => iteOn (by rw [Node.rule_bare]) (pure _) ?_)
  exact (meaning t).lift.bind fun _ => pure _

theorem lenientMood : Bared id (Shape.lenientMood n) (Shape.lenientMood n.bare) := by
  refine parts (token.bind fun t => iteOn (by rw [Node.rule_bare]) (pure _) ?_)
  have htext : t.bare.text = t.text := rfl
  simp only [htext]
  split <;> exact pure _

theorem ability : Bared id (Shape.ability n) (Shape.ability n.bare) :=
  parts (name.bind fun _ => token?.bind fun t? => done (by cases t? <;> rfl))

/-! ## Collecting faults -/

theorem report (fault : ShapeFault) : Bared id (Shape.report fault) (Shape.report fault.bare) := by
  intro fs
  change EStateM.Result.ok () (fs.map ShapeFault.bare ++ [fault.bare]) =
    .ok () ((fs ++ [fault]).map ShapeFault.bare)
  rw [List.map_append, List.map_singleton]

theorem keep {p q : Shape.Collecting α} (h : Bared e p q) :
    Bared (Option.map e) (Shape.keep p) (Shape.keep q) := by
  intro fs
  rw [Shape.run_keep, Shape.run_keep, h]
  cases p fs with
  | ok a fs' => rfl
  | error fault fs' => simp [Shape.bareCollected]

theorem keepAll {f g : Node → Shape.Collecting α} (h : ∀ n, Bared e (f n) (g n.bare))
    (ns : List Node) :
    Bared (List.map e) (Shape.keepAll f ns) (Shape.keepAll g (ns.map Node.bare)) := by
  have hkept : Bared (List.map (Option.map e)) (ns.mapM fun n => Shape.keep (f n))
      ((ns.map Node.bare).mapM fun n => Shape.keep (g n)) := by
    refine Bared.mapM (fun n => ?_) ns
    exact keep (h n)
  exact hkept.bind fun _ => done List.reduceOption_map

theorem keepChanges {f g : α → Node → Shape.Collecting α}
    (h : ∀ a n, Bared e (f a n) (g (e a) n.bare)) (start : α) (ns : List Node) :
    Bared e (Shape.keepChanges f start ns) (Shape.keepChanges g (e start) (ns.map Node.bare)) := by
  refine foldlM (fun a n => (keep (h a n)).bind fun a? => ?_) start ns
  cases a? with
  | none => exact pure a
  | some a' => exact pure a'

theorem setOnce (slot : Option α) (a : α) :
    Bared id (Shape.setOnce slot what n.span a) (Shape.setOnce slot what n.bare.span a) := by
  rw [Node.span_bare]
  cases slot with
  | none => exact pure (some a)
  | some old => exact (report (.repeated what n.span)).bind fun _ => pure (some old)

/-- A value that is built and put into a slot. -/
theorem fills {β γ : Type} {d : γ → γ} {p q : Except ShapeFault α} {slot : Option β} {f : α → β}
    {g g' : Option β → γ} (h : Bared id p q) (hg : ∀ b?, g' b? = d (g b?)) :
    Bared (m := Shape.Collecting) d
      (do let a ← p; return g (← Shape.setOnce slot what n.span (f a)))
      (do let a ← q; return g' (← Shape.setOnce slot what n.bare.span (f a))) :=
  h.collecting.bind fun _ => (setOnce _ _).bind fun _ => done (hg _)

theorem require (slot : Option α) :
    Bared id (Shape.require slot what n.span) (Shape.require slot what n.bare.span) := by
  rw [Node.span_bare]
  cases slot with
  | none => exact refuse rfl
  | some a => exact pure a

end Baring.Built

end Storyworld
