import Storyworld.Grammar.Parse
import Storyworld.Lint

namespace Storyworld

/-! What tokens, trees and faults say, wherever they stand: every place in them is put at the
origin. -/

/-! ## Tokens and trees -/

def Token.bare (t : Token) : Token :=
  { t with span := .origin }

mutual

def Node.bare : Node → Node
  | .mk r _ cs => .mk r .origin (Element.bareAll cs)

def Element.bareAll : List Element → List Element
  | [] => []
  | c :: cs => c.bare :: Element.bareAll cs

def Element.bare : Element → Element
  | .node n => .node n.bare
  | .token t => .token t.bare

end

/-- Tokens are the same, bare, where they agree in kind and text. -/
theorem Token.map_bare_eq_iff {ts us : List Token} :
    ts.map Token.bare = us.map Token.bare ↔
      ts.map (fun t => (t.kind, t.text)) = us.map fun t => (t.kind, t.text) := by
  induction ts generalizing us with
  | nil => cases us <;> simp
  | cons t ts ih => cases us <;> simp [ih, Token.bare]

namespace Node

@[simp] theorem rule_bare (n : Node) : n.bare.rule = n.rule := by
  cases n
  rfl

@[simp] theorem span_bare (n : Node) : n.bare.span = .origin := by
  cases n
  rfl

@[simp] theorem children_bare (n : Node) : n.bare.children = Element.bareAll n.children := by
  cases n
  rfl

end Node

namespace Element

theorem bareAll_eq_map (cs : List Element) : bareAll cs = cs.map bare := by
  induction cs with
  | nil => rfl
  | cons c cs ih => rw [bareAll, ih, List.map_cons]

theorem bareAll_append (cs ds : List Element) : bareAll (cs ++ ds) = bareAll cs ++ bareAll ds := by
  simp only [bareAll_eq_map, List.map_append]

@[simp] theorem bareAll_map_node (ns : List Node) :
    bareAll (ns.map .node) = (ns.map Node.bare).map .node := by
  induction ns with
  | nil => rfl
  | cons n ns ih => exact congrArg _ ih

@[simp] theorem bareAll_map_token (ts : List Token) :
    bareAll (ts.map .token) = (ts.map Token.bare).map .token := by
  induction ts with
  | nil => rfl
  | cons t ts ih => exact congrArg _ ih

@[simp] theorem nodes_bareAll (cs : List Element) :
    nodes (bareAll cs) = (nodes cs).map Node.bare := by
  induction cs with
  | nil => rfl
  | cons c cs ih =>
      cases c with
      | node n => exact congrArg (n.bare :: ·) ih
      | token t => exact ih

@[simp] theorem tokens_bareAll (cs : List Element) :
    tokens (bareAll cs) = (tokens cs).map Token.bare := by
  induction cs with
  | nil => rfl
  | cons c cs ih =>
      cases c with
      | node n => exact ih
      | token t => exact congrArg (t.bare :: ·) ih

end Element

namespace Node

@[simp] theorem nodes_bare (n : Node) : n.bare.nodes = n.nodes.map Node.bare := by
  rw [nodes, children_bare, Element.nodes_bareAll, nodes]

@[simp] theorem tokens_bare (n : Node) : n.bare.tokens = n.tokens.map Token.bare := by
  rw [tokens, children_bare, Element.tokens_bareAll, tokens]

@[simp] theorem has_bare (n : Node) (r : Rule) : n.bare.has r = n.has r := by
  simp [has, List.any_map, Function.comp_def]

end Node

/-! ## Faults, warnings and the log -/

def SyntaxFault.bare (f : SyntaxFault) : SyntaxFault :=
  { f with span := .origin }

def ShapeFault.bare : ShapeFault → ShapeFault
  | missing what _ => missing what .origin
  | empty what _ => empty what .origin
  | unknownWord what value expected _ => unknownWord what value expected .origin
  | repeated what _ => repeated what .origin
  | outOfRange what value _ => outOfRange what value .origin

def LexFault.bare : LexFault → LexFault
  | unclosedString _ => unclosedString .origin
  | strayByte byte _ => strayByte byte .origin

def Fault.bare : Fault → Fault
  | lex f => lex f.bare
  | syntactic f => syntactic f.bare
  | shape f => shape f.bare

def Lint.bare (l : Lint) : Lint :=
  { l with span := .origin }

def Log.Entry.bare : Log.Entry → Log.Entry
  | lexed tokens bytes => lexed tokens bytes
  | lexingFailed fault => lexingFailed fault.bare
  | skipped token => skipped token.bare
  | droppedNode rule _ => droppedNode rule .origin
  | parsed definitions tokens faults => parsed definitions tokens faults
  | warned lint => warned lint.bare
  | droppedDefinition _ => droppedDefinition .origin
  | built definitions faults => built definitions faults

/-! ## States of reading -/

namespace Grammar

def Context.bare (c : Context) : Context :=
  { c with eof := .origin }

def State.bare (s : State) : State where
  rest := s.rest.map Token.bare
  last := .origin
  depth := s.depth
  faults := s.faults.map SyntaxFault.bare
  log := s.log.map Log.Entry.bare

end Grammar

end Storyworld

namespace Storyworld

/-! ## Computations

Computations that do not go by places: with the places left out of what they work on, they do the
same and give the same with the places left out. -/

/-- Kinds of computations that places can be left out of. `Bared e p q` tells that `q` does without
places what `p` does with them; `e` leaves the places out of a result. -/
class Baring (m : Type → Type) [Monad m] where
  Bared {α : Type} : (α → α) → m α → m α → Prop
  pure {α : Type} {e : α → α} (a : α) : Bared e (pure a) (pure (e a))
  bind {α β : Type} {d : α → α} {e : β → β} {p q : m α} {f g : α → m β} :
    Bared d p q → (∀ a, Bared e (f a) (g (d a))) → Bared e (p >>= f) (q >>= g)

namespace Baring.Bared

variable {m : Type → Type} [Monad m] [Baring m] {α β : Type} {d : α → α} {e : β → β}

theorem pure (a : α) : Bared (m := m) d (Pure.pure a) (Pure.pure (d a)) :=
  Baring.pure a

theorem done {a b : α} (h : b = d a) : Bared (m := m) d (Pure.pure a) (Pure.pure b) := by
  rw [h]
  exact pure a

theorem bind {p q : m α} {f g : α → m β} (hp : Bared d p q) (hf : ∀ a, Bared e (f a) (g (d a))) :
    Bared e (p >>= f) (q >>= g) :=
  Baring.bind hp hf

theorem map [LawfulMonad m] {p q : m α} {f g : α → β} (hp : Bared d p q)
    (h : ∀ a, g (d a) = e (f a)) : Bared e (f <$> p) (g <$> q) := by
  rw [map_eq_pure_bind, map_eq_pure_bind]
  exact hp.bind fun a => done (h a)

theorem discard [LawfulMonad m] {p q : m α} (h : Bared d p q) :
    Bared id (discard p) (discard q) := by
  simp only [Functor.discard, LawfulFunctor.map_const]
  exact h.map fun _ => rfl

theorem ite {b : Prop} [Decidable b] {p p' q q' : m α} (hp : Bared d p q) (hp' : Bared d p' q') :
    Bared d (if b then p else p') (if b then q else q') := by
  split
  · exact hp
  · exact hp'

/-- Computations on equal conditions. -/
theorem iteOn {b b' : Prop} [Decidable b] [Decidable b'] {p p' q q' : m α} (h : b' ↔ b)
    (hp : Bared d p q) (hp' : Bared d p' q') :
    Bared d (if b then p else p') (if b' then q else q') := by
  simp only [h]
  exact hp.ite hp'

/-! ## Lists -/

theorem mapM [LawfulMonad m] {f g : α → m β} (h : ∀ a, Bared e (f a) (g (d a))) (as : List α) :
    Bared (List.map e) (as.mapM f) ((as.map d).mapM g) := by
  induction as with
  | nil => exact pure []
  | cons a as ih =>
      rw [List.map_cons, List.mapM_cons, List.mapM_cons]
      exact (h a).bind fun b => ih.bind fun bs => pure (b :: bs)

theorem foldlM {f g : β → α → m β} (h : ∀ b a, Bared e (f b a) (g (e b) (d a))) (b : β)
    (as : List α) : Bared e (as.foldlM f b) ((as.map d).foldlM g (e b)) := by
  induction as generalizing b with
  | nil => exact pure b
  | cons a as ih =>
      rw [List.map_cons, List.foldlM_cons, List.foldlM_cons]
      exact (h b a).bind ih

end Baring.Bared

end Storyworld
