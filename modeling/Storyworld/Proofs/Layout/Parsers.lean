import Storyworld.Proofs.Grammar.Run
import Storyworld.Proofs.Relabel.Definitions

namespace Storyworld.Grammar

/-! Reading tokens does not go by their places. -/

open Baring

/-- A result of reading with the places left out. -/
def bareResult {α : Type} (e : α → α) :
    EStateM.Result SyntaxFault State α → EStateM.Result SyntaxFault State α
  | .ok a s => .ok (e a) s.bare
  | .error fault s => .error fault.bare s.bare

instance : Baring Parse where
  Bared e p q := ∀ c s, q c.bare s.bare = bareResult e (p c s)
  pure _ _ _ := rfl
  bind {α β d e p q f g} hp hf c s := by
    rw [run_bind, run_bind, hp]
    cases p c s with
    | ok a s' => exact hf a c s'
    | error fault s' => rfl

variable {α β : Type} {d : α → α} {e : β → β} {c : Context} {s : State}

/-! ## States -/

@[simp] theorem Context.bare_settings : c.bare.settings = c.settings := rfl

namespace State

@[simp] theorem bare_rest : s.bare.rest = s.rest.map Token.bare := rfl

@[simp] theorem bare_depth : s.bare.depth = s.depth := rfl

@[simp] theorem bare_faults : s.bare.faults = s.faults.map SyntaxFault.bare := rfl

theorem bare_advance : s.bare.advance = s.advance.bare := by
  unfold advance
  cases hr : s.rest <;> simp [bare, hr, Token.bare, depthAfter]

theorem bare_skip {stops : Nat → Token → Bool} (h : ∀ n t, stops n t.bare = stops n t) :
    s.bare.skip stops = (s.skip stops).bare := by
  induction hr : s.rest generalizing s with
  | nil =>
      have hr' : s.bare.rest = [] := by simp [hr]
      rw [skip_of_nil hr, skip_of_nil hr']
  | cons t rest ih =>
      have hr' : s.bare.rest = t.bare :: rest.map Token.bare := by simp [hr]
      cases hstop : stops s.depth t with
      | true =>
          have hstop' : stops s.bare.depth t.bare := (h _ t).trans hstop
          rw [skip_of_stop hr hstop, skip_of_stop hr' hstop']
      | false =>
          have hstop' : stops s.bare.depth t.bare = false := (h _ t).trans hstop
          have hpass : s.bare.pass t.bare = (s.pass t).bare := by
            rw [pass, bare_advance]
            rfl
          rw [skip_of_pass hr hstop, skip_of_pass hr' hstop', hpass]
          exact ih (by simp [pass, advance_of_cons hr])

theorem bare_resumed {stops : Nat → Token → Bool} (h : ∀ n t, stops n t.bare = stops n t)
    (left : Nat) : s.bare.resumed stops left = (s.resumed stops left).bare := by
  unfold resumed
  simp only [bare_rest, List.length_map]
  split
  · rw [bare_advance, bare_skip h]
  · exact bare_skip h

theorem bare_faulted (fault : SyntaxFault) : (s.faulted fault).bare = s.bare.faulted fault.bare := by
  simp [faulted, bare]

end State

/-- A rule and the parts of a node with the places left out. -/
def bareParts : Rule × List Element → Rule × List Element :=
  Prod.map id Element.bareAll

theorem parts_bare : Relabelling.bare.parts = bareParts :=
  congrArg (Prod.map id) (funext Relabelling.bare_elements)

end Storyworld.Grammar

namespace Storyworld.Baring.Bared

open Grammar

variable {α β : Type} {d : α → α} {e : β → β}

/-! ## The monad -/

theorem read : Bared Context.bare (m := Parse) read read :=
  fun _ _ => rfl

theorem get : Bared State.bare (m := Parse) get get :=
  fun _ _ => rfl

theorem modify {f g : State → State} (h : ∀ s, g s.bare = (f s).bare) :
    Bared id (m := Parse) (modify f) (modify g) :=
  fun _ s => congrArg (EStateM.Result.ok ()) (h s)

theorem fail {fault fault' : SyntaxFault} (h : fault' = fault.bare) :
    Bared d (m := Parse) (throw fault) (throw fault') :=
  fun _ s => congrArg (EStateM.Result.error · s.bare) h

theorem tryCatch {p q : Parse α} {f g : SyntaxFault → Parse α} (hp : Bared d p q)
    (hf : ∀ fault, Bared d (f fault) (g fault.bare)) :
    Bared d (tryCatch p f) (tryCatch q g) := by
  intro c s
  rw [run_tryCatch, run_tryCatch, hp]
  cases p c s with
  | ok a s' => rfl
  | error fault s' => exact hf fault c s'

/-! ## Looking ahead -/

theorem ahead? (n : Nat) : Bared (Option.map Token.bare) (Grammar.ahead? n) (Grammar.ahead? n) :=
  get.bind fun _ => done (by simp)

theorem atEnd : Bared id Grammar.atEnd Grammar.atEnd :=
  get.bind fun _ => done (by simp)

theorem here : Bared (fun _ => .origin) Grammar.here Grammar.here := by
  refine (ahead? 0).bind fun t? => ?_
  cases t? with
  | none => exact read.bind fun _ => pure _
  | some t => exact pure t.span

theorem braceDepth : Bared id Grammar.braceDepth Grammar.braceDepth :=
  get.bind fun _ => pure _

theorem remaining : Bared id Grammar.remaining Grammar.remaining :=
  get.bind fun _ => done (by simp)

/-! ## Taking tokens -/

theorem advance : Bared id Grammar.advance Grammar.advance :=
  modify fun _ => State.bare_advance

theorem unexpected (expected : List String) :
    Bared d (Grammar.unexpected expected) (Grammar.unexpected expected) := by
  refine (ahead? 0).bind fun t? => ?_
  cases t? with
  | none => exact read.bind fun _ => fail rfl
  | some t => exact fail rfl

/-- What follows a token goes by what was accepted. -/
theorem expectThen {f g : Token → Parse β} (expected : List String) {accept : Token → Bool}
    (h : ∀ t, accept t.bare = accept t) (hf : ∀ t, accept t → Bared e (f t) (g t.bare)) :
    Bared e (Grammar.expect expected accept >>= f) (Grammar.expect expected accept >>= g) := by
  have hfault : Bared e (Grammar.unexpected expected : Parse β) (Grammar.unexpected expected) :=
    unexpected expected
  intro c s
  have hfault := hfault c s
  rw [run_unexpected, run_unexpected] at hfault
  rw [run_bind, run_bind, run_expect, run_expect]
  cases hr : s.rest with
  | nil => simpa [hr] using hfault
  | cons t rest =>
      have hr' : s.bare.rest = t.bare :: rest.map Token.bare := by simp [hr]
      simp only [hr', h]
      cases ha : accept t with
      | true =>
          rw [if_pos rfl, if_pos rfl, State.bare_advance]
          exact hf t ha c s.advance
      | false => simpa using hfault

theorem expect (expected : List String) {accept : Token → Bool}
    (h : ∀ t, accept t.bare = accept t) :
    Bared Token.bare (Grammar.expect expected accept) (Grammar.expect expected accept) := by
  rw [← bind_pure (Grammar.expect expected accept)]
  exact expectThen expected h fun t _ => pure t

theorem number : Bared Token.bare Grammar.number Grammar.number :=
  (expect _ fun _ => rfl).bind fun t => ite ((fail (d := id) rfl).bind fun _ => pure t) (pure t)

/-! ## Nodes -/

theorem nodeBy {p q : Parse (Rule × List Element)} (h : Bared bareParts p q) :
    Bared Node.bare (Grammar.nodeBy p) (Grammar.nodeBy q) :=
  here.bind fun _ => h.bind fun _ => get.bind fun _ => pure _

/-! ## Lists -/

theorem collect {p q : Parse (Option α)} (h : Bared (Option.map d) p q) (n : Nat) :
    Bared (List.map d) (Grammar.collect p n) (Grammar.collect q n) := by
  induction n with
  | zero => exact pure []
  | succ n ih =>
      refine h.bind fun a? => ?_
      cases a? with
      | none => exact pure []
      | some a => exact ih.bind fun as => pure (a :: as)

theorem many {p q : Parse (Option α)} (h : Bared (Option.map d) p q) :
    Bared (List.map d) (Grammar.many p) (Grammar.many q) :=
  remaining.bind fun _ => h.collect _

/-! ## Blocks -/

theorem round (depth : Nat) (starters : List String) {p q : Parse Node} (h : Bared Node.bare p q) :
    Bared (Option.map (List.map Node.bare)) (Grammar.round depth starters p)
      (Grammar.round depth starters q) := by
  intro c s
  have hrest {t : Token} {rest : List Token} (hr : s.rest = t :: rest) :
      s.bare.rest = t.bare :: rest.map Token.bare := by simp [hr]
  have hstatement {e : Ending Node} (hp : p c s = e) : q c.bare s.bare = bareResult Node.bare e :=
    hp ▸ h c s
  generalize hp : Grammar.round depth starters p c s = e
  apply roundDerivation_iff.mp
  cases roundDerivation_iff.mpr hp with
  | outside hd => exact .outside hd
  | unclosed hd hr =>
      have hround : RoundDerivation c.bare depth starters q s.bare _ := .unclosed hd (by simp [hr])
      simpa [bareResult, State.unexpected, hr, SyntaxFault.bare, Context.bare] using hround
  | closes hd hr ht =>
      have hround : RoundDerivation c.bare depth starters q s.bare _ := .closes hd (hrest hr) ht
      rwa [State.bare_advance] at hround
  | reads hd hr ht hs => exact .reads (s := s.bare) hd (hrest hr) ht (hstatement hs)
  | resumes hd hr ht hs hlt =>
      have hround : RoundDerivation c.bare depth starters q s.bare _ :=
        .resumes (s := s.bare) hd (hrest hr) ht (hstatement hs) (by simpa using hlt)
      rw [← State.bare_faulted, State.bare_resumed fun _ _ => rfl] at hround
      simpa [bareResult] using hround
  | fails hd hr ht hs hle =>
      exact .fails (s := s.bare) hd (hrest hr) ht (hstatement hs) (by simpa using hle)

theorem block (starters : List String) {p q : Parse Node} (h : Bared Node.bare p q) :
    Bared (List.map Node.bare) (Grammar.block starters p) (Grammar.block starters q) := by
  rw [block_eq, block_eq]
  refine (expect _ fun _ => rfl).discard.bind fun _ => braceDepth.bind fun depth => ?_
  exact (h.round depth starters).many.bind fun _ => done List.map_flatten.symm

/-! ## Sources -/

/-- A parser that goes by kinds and reserved words does not go by places. -/
theorem of_uniform {p q : Parse α} (h : Uniform .bare d p q) : Bared d p q := by
  induction h with
  | done h => exact done h
  | bind _ _ hp hf => exact hp.bind hf
  | within _ h => exact read.bind fun c => h c.settings.maxNesting
  | look f h => exact get.bind fun s => done (by simpa using h s.rest)
  | advance => exact advance
  | take expected accept h _ hf =>
      refine expectThen expected (by simpa using h) fun t ht => ?_
      simpa using hf t ht
  | number =>
      rw [Relabelling.bare_token]
      exact number
  | unexpected expected => exact unexpected expected
  | failHere cause => exact read.bind fun _ => here.bind fun _ => fail rfl
  | nodeBy _ h =>
      rw [funext Relabelling.bare_node]
      exact nodeBy (parts_bare ▸ h)
  | many _ h => exact many h
  | block starters _ h =>
      rw [funext Relabelling.bare_node] at h ⊢
      exact block starters h

theorem node_of_uniform {p q : Parse Node} (h : Uniform .bare Relabelling.bare.node p q) :
    Bared Node.bare p q :=
  funext Relabelling.bare_node ▸ of_uniform h

theorem parts_of_uniform {p q : Parse (Rule × List Element)}
    (h : Uniform .bare Relabelling.bare.parts p q) : Bared bareParts p q :=
  parts_bare ▸ of_uniform h

theorem definition : Bared Node.bare Grammar.definition Grammar.definition :=
  node_of_uniform .definition

theorem logEntry (e : Log.Entry) : Bared id (Grammar.logEntry e) (Grammar.logEntry e.bare) :=
  modify fun _ => rfl

theorem recordFault (fault : SyntaxFault) :
    Bared id (Grammar.recordFault fault) (Grammar.recordFault fault.bare) :=
  modify fun s => (State.bare_faulted (s := s) fault).symm

theorem skipToDefinition (left : Nat) :
    Bared id (Grammar.skipToDefinition left) (Grammar.skipToDefinition left) :=
  modify fun _ => State.bare_resumed (fun _ _ => rfl) left

theorem keepDefinition (before : Nat) (n : Node) :
    Bared (Option.map (List.map Node.bare)) (Grammar.keepDefinition before n)
      (Grammar.keepDefinition before n.bare) := by
  refine get.bind fun s => iteOn (by simp) (pure _) ?_
  rw [Node.rule_bare, Node.span_bare]
  exact (logEntry _).bind fun _ => pure _

theorem dropDefinition (left : Nat) (fault : SyntaxFault) :
    Bared (Option.map (List.map Node.bare)) (Grammar.dropDefinition left fault)
      (Grammar.dropDefinition left fault.bare) := by
  refine (recordFault fault).bind fun _ => read.bind fun c => get.bind fun s => ?_
  refine iteOn (by simp) (pure _) ?_
  exact (skipToDefinition left).bind fun _ => pure _

theorem nextDefinition :
    Bared (Option.map (List.map Node.bare)) Grammar.nextDefinition Grammar.nextDefinition := by
  refine atEnd.bind fun _ => ite (pure none) (get.bind fun s => remaining.bind fun left => ?_)
  rw [State.bare_faults, List.length_map]
  exact tryCatch (definition.bind (keepDefinition _)) (dropDefinition left)

theorem document : Bared (List.map Node.bare) Grammar.document Grammar.document := by
  refine remaining.bind fun total => nextDefinition.many.bind fun nss => ?_
  rw [← List.map_flatten]
  generalize nss.flatten = ns
  have hend : Bared (m := Parse) (List.map Node.bare)
      (do
        Grammar.logEntry (.parsed ns.length total (← MonadState.get).faults.length)
        return ns)
      (do
        Grammar.logEntry (.parsed (ns.map Node.bare).length total (← MonadState.get).faults.length)
        return ns.map Node.bare) := by
    rw [List.length_map]
    refine get.bind fun s => ?_
    rw [State.bare_faults, List.length_map]
    exact (logEntry _).bind fun _ => pure ns
  refine get.bind fun s => iteOn (by simp) ?_ hend
  exact read.bind fun c => (recordFault _).bind fun _ => hend

end Storyworld.Baring.Bared
