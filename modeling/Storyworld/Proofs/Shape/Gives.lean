import Storyworld.Condition.Shape
import Storyworld.Proofs.Tree.Grown
import Storyworld.Shape.Collecting

namespace Storyworld

/-! Building a tree whose nodes have the parts their rules ask for. Which faults may turn up, and
what the nodes and tokens tell, is said node by node and token by token. -/

/-! ## Faults to be expected -/

/-- Content that building asks for where the grammar does not. -/
def Rule.leftOpen : Rule → List String
  | goalDef => ["goal name", "goal description", "goal group", "goal start", "goal done"]
  | consumable => ["uses_left", "when_consumed"]
  | overlayFlagBinary => ["set text", "unset text"]
  | overlayItemPresence | overlayNpcPresence => ["present text", "absent text"]
  | overlayConditional => ["overlay text"]
  | _ => []

/-- Closed sets of words for which the grammar takes any word. -/
def Token.looseSets : List String :=
  ["npc state", "container state", "goal group"]

/-- What the numbers are called that have to lie between bounds. -/
def Token.measures : List String :=
  ["chance percent", "schedule turns", "retry turns", "seq flag limit", "wedge width", "uses_left"]

/-- What is expected of a tree and of what is built from it. -/
structure Expected where
  /-- The faults that may turn up. -/
  fault : ShapeFault → Prop
  /-- The places of nodes. -/
  place : Span → Prop
  /-- The words that may be names. -/
  name : String → Prop
  /-- The values of strings. -/
  quote : String → Prop
  /-- How many schedules and condition groups may lie inside one another. -/
  limit : Nat

/-- The faults that can lie at a node are expected: content left open, and everything that is not
about the make of the tree. -/
structure Node.Allows (E : Expected) (n : Node) : Prop where
  missing : ∀ what ∈ n.rule.leftOpen, E.fault (.missing what n.span)
  empty : ∀ what, E.fault (.empty what n.span)
  repeated : ∀ what, E.fault (.repeated what n.span)
  tooDeep : E.fault (Shape.tooDeep E.limit n)

/-- The faults that can lie at a token are expected, and so is what it names or quotes. -/
structure Token.Allows (E : Expected) (t : Token) : Prop where
  unknown : ∀ what ∈ Token.looseSets, ∀ expected,
    E.fault (.unknownWord what t.text expected t.span)
  outOfRange : ∀ what ∈ Token.measures, ∀ value, E.fault (.outOfRange what value t.span)
  named : t.isWord → E.name t.text
  quoted : ∀ value, t.stringValue? = some value → E.quote value

/-- A tree whose nodes fill their slots, and that is as expected. -/
def Node.Legible (E : Expected) (n : Node) : Prop :=
  n.Every (fun m => m.isFilled ∧ E.place m.span ∧ m.Allows E) (Token.Allows E)

/-- Parts that fill a row of slots and satisfy `P`. -/
def RowOf (P : Element → Prop) (slots : List Slot) (cs : List Element) : Prop :=
  fill slots cs ∧ ∀ c ∈ cs, P c

/-- Parts that fill a row of slots and are as expected. -/
def Row (E : Expected) : List Slot → List Element → Prop :=
  RowOf fun c => c.Every (fun m => m.isFilled ∧ E.place m.span ∧ m.Allows E) (Token.Allows E)

section

variable {E : Expected} {P : Element → Prop} {slots : List Slot} {cs : List Element}
  {c : Element} {p : Part} {rules : List Rule} {n : Node}

namespace Node.Legible

theorem row (h : n.Legible E) : Row E n.rule.slots n.children :=
  ⟨(Every.here h).1, fun _ hc => Every.child h hc⟩

theorem span (h : n.Legible E) : E.place n.span :=
  (Every.here h).2.1

theorem allows (h : n.Legible E) : n.Allows E :=
  (Every.here h).2.2

end Node.Legible

namespace RowOf

theorem one (h : RowOf P (.one p :: slots) cs) :
    ∃ c cs', cs = c :: cs' ∧ p.fits c ∧ P c ∧ RowOf P slots cs' := by
  obtain ⟨hfill, hall⟩ := h
  cases cs with
  | nil => simp at hfill
  | cons c cs =>
      rw [fill_one, Bool.and_eq_true] at hfill
      exact ⟨c, cs, rfl, hfill.1, hall c (by simp), hfill.2, fun d hd => hall d (by simp [hd])⟩

/-- A slot for a word, a string or the like holds a token. -/
theorem token (h : RowOf P (.one p :: slots) cs) (hp : ∀ n, p.fits (.node n) = false) :
    ∃ t cs', cs = .token t :: cs' ∧ p.admits t ∧ P (.token t) ∧ RowOf P slots cs' := by
  obtain ⟨c, cs', rfl, hfits, hc, hrow⟩ := h.one
  cases c with
  | node n => simp [hp] at hfits
  | token t =>
      have hadmits : p.admits t := by
        cases p <;> simp_all [Part.fits]
      exact ⟨t, cs', rfl, hadmits, hc, hrow⟩

theorem child (h : RowOf P (.one (.node rules) :: slots) cs) :
    ∃ n cs', cs = .node n :: cs' ∧ n.rule ∈ rules ∧ P (.node n) ∧ RowOf P slots cs' := by
  obtain ⟨c, cs', rfl, hfits, hc, hrow⟩ := h.one
  cases c with
  | node n => exact ⟨n, cs', rfl, by simpa [Part.fits] using hfits, hc, hrow⟩
  | token t => simp [Part.fits, Part.admits] at hfits

/-- The nodes that fill the rest of a row. -/
theorem nodes (h : RowOf P [.many (.node rules)] cs) :
    ∀ n ∈ Element.nodes cs, n.rule ∈ rules ∧ P (.node n) := by
  obtain ⟨hfill, hall⟩ := h
  rw [fill_many_nil] at hfill
  intro n hn
  have hc := Element.mem_nodes.mp hn
  exact ⟨by simpa [Part.fits] using hfill _ hc, hall _ hc⟩

/-- The tokens that fill the rest of a row. -/
theorem tokens (h : RowOf P [.many p] cs) : ∀ t ∈ Element.tokens cs, p.admits t ∧ P (.token t) := by
  obtain ⟨hfill, hall⟩ := h
  rw [fill_many_nil] at hfill
  intro t ht
  obtain ⟨c, hc, htoken⟩ := List.mem_filterMap.mp ht
  cases c with
  | node m => cases htoken
  | token u =>
      cases htoken
      have hfits := hfill _ hc
      refine ⟨?_, hall _ hc⟩
      cases p <;> simp_all [Part.fits, Part.admits]

end RowOf

namespace Row

theorem nodes (h : Row E [.many (.node rules)] cs) :
    ∀ n ∈ Element.nodes cs, n.rule ∈ rules ∧ n.Legible E := fun n hn =>
  (RowOf.nodes h n hn).imp_right Element.every_node.mp

theorem tokens (h : Row E [.many p] cs) : ∀ t ∈ Element.tokens cs, p.admits t ∧ t.Allows E :=
  fun t ht => (RowOf.tokens h t ht).imp_right Element.every_token.mp

end Row

end

namespace Shape

/-! ## Results without faults on the way -/

/-- A result that satisfies `Q`, or a fault that satisfies `F`. -/
structure Gives (F : ShapeFault → Prop) (x : Except ShapeFault α) (Q : α → Prop) : Prop where
  ok : ∀ {a}, x = .ok a → Q a
  error : ∀ {fault}, x = .error fault → F fault

variable {F : ShapeFault → Prop} {E : Expected} {slots slots' slots'' : List Slot} {p : Part}
  {rules : List Rule} {n : Node} {t : Token} {what : String}

namespace Gives

variable {α β : Type} {x : Except ShapeFault α} {Q : α → Prop} {R : β → Prop} {fault : ShapeFault}

theorem done {a : α} (h : Q a) : Gives F (.ok a) Q :=
  ⟨fun ha => by cases ha; exact h, nofun⟩

theorem fail (h : F fault) : Gives F (.error fault) Q :=
  ⟨nofun, fun hf => by cases hf; exact h⟩

/-- What can be said of every result. -/
theorem any : Gives (fun _ => True) x fun _ => True :=
  ⟨fun _ => trivial, fun _ => trivial⟩

theorem bind {f : α → Except ShapeFault β} (hx : Gives F x Q) (hf : ∀ a, Q a → Gives F (f a) R) :
    Gives F (x >>= f) R := by
  cases x with
  | error fault => exact fail (hx.error rfl)
  | ok a => exact hf a (hx.ok rfl)

theorem map {f : α → β} (hx : Gives F x Q) (hf : ∀ a, Q a → R (f a)) : Gives F (f <$> x) R := by
  cases x with
  | error fault => exact fail (hx.error rfl)
  | ok a => exact done (hf a (hx.ok rfl))

theorem mono {Q' : α → Prop} (hx : Gives F x Q) (h : ∀ a, Q a → Q' a) : Gives F x Q' :=
  ⟨fun ha => h _ (hx.ok ha), hx.error⟩

theorem ite {b : Prop} [Decidable b] {y : Except ShapeFault α} (hx : b → Gives F x Q)
    (hy : ¬b → Gives F y Q) : Gives F (if b then x else y) Q := by
  split
  · exact hx ‹_›
  · exact hy ‹_›

/-- Where no fault is possible there is a result. -/
theorem exists_ok (hx : Gives (fun _ => False) x Q) : ∃ a, x = .ok a ∧ Q a := by
  cases x with
  | error fault => exact (hx.error rfl).elim
  | ok a => exact ⟨a, rfl, hx.ok rfl⟩

theorem mapM {f : α → Except ShapeFault β} {as : List α} (h : ∀ a ∈ as, Gives F (f a) R) :
    Gives F (as.mapM f) fun bs => ∀ b ∈ bs, R b := by
  induction as with
  | nil => exact done (by simp)
  | cons a as ih =>
      rw [List.mapM_cons]
      refine (h a (by simp)).bind fun b hb => ?_
      refine (ih fun a' ha' => h a' (by simp [ha'])).bind fun bs hbs => done ?_
      simpa using ⟨hb, hbs⟩

end Gives

/-! ## Reading parts -/

/-- Reading that finds what fills `slots` and satisfies `P`, and leaves what fills `slots'`; where it
fails, the fault satisfies `F`. -/
def ReadsOf (F : ShapeFault → Prop) (P : Element → Prop) (slots slots' : List Slot) (r : Reading α)
    (Q : α → Prop) : Prop :=
  ∀ span cs, RowOf P slots cs → Gives F (r span cs) fun p => Q p.1 ∧ RowOf P slots' p.2

/-- Reading of what is as expected. -/
def Reads (E : Expected) : (slots slots' : List Slot) → Reading α → (α → Prop) → Prop :=
  ReadsOf E.fault fun c =>
    c.Every (fun m => m.isFilled ∧ E.place m.span ∧ m.Allows E) (Token.Allows E)

namespace ReadsOf

variable {α β : Type} {P : Element → Prop} {r : Reading α} {Q : α → Prop} {R : β → Prop}

theorem done {a : α} (h : Q a) : ReadsOf F P slots slots (pure a) Q :=
  fun _ _ hrow => .done ⟨h, hrow⟩

theorem bind {f : α → Reading β} (hr : ReadsOf F P slots slots' r Q)
    (hf : ∀ a, Q a → ReadsOf F P slots' slots'' (f a) R) : ReadsOf F P slots slots'' (r >>= f) R :=
  fun span cs hrow => (hr span cs hrow).bind fun _ h => hf _ h.1 span _ h.2

theorem lift {x : Except ShapeFault α} (h : Gives F x Q) : ReadsOf F P slots slots (liftM x) Q := by
  intro span cs hrow
  cases x with
  | error fault => exact .fail (h.error rfl)
  | ok a => exact .done ⟨h.ok rfl, hrow⟩

theorem mono {Q' : α → Prop} (hr : ReadsOf F P slots slots' r Q) (h : ∀ a, Q a → Q' a) :
    ReadsOf F P slots slots' r Q' :=
  fun span cs hrow => (hr span cs hrow).mono fun _ hp => ⟨h _ hp.1, hp.2⟩

theorem token (hp : ∀ n, p.fits (.node n) = false) :
    ReadsOf F P (.one p :: slots) slots (token what) fun t => p.admits t ∧ P (.token t) := by
  intro span cs hrow
  obtain ⟨t, cs', rfl, hadmits, hP, hrow'⟩ := hrow.token hp
  exact .done ⟨⟨hadmits, hP⟩, hrow'⟩

/-- A token that may be left out at the end of a row. -/
theorem token? (hp : ∀ n, p.fits (.node n) = false) :
    ReadsOf F P [.optional p] [] token? fun t? => ∀ t ∈ t?, p.admits t ∧ P (.token t) := by
  rintro span cs ⟨hfill, hall⟩
  match cs with
  | [] => exact .done ⟨by simp, rfl, by simp⟩
  | .node n :: cs =>
      rw [fill_optional_of_not_fits (hp n)] at hfill
      cases hfill
  | .token t :: cs =>
      have hfits : p.fits (.token t) ∧ cs = [] := by
        rw [fill] at hfill
        split at hfill
        · exact ⟨‹_›, by simpa using hfill⟩
        · cases hfill
      have hadmits : p.admits t := by
        have hfits := hfits.1
        cases p <;> simp_all [Part.fits]
      refine .done ⟨?_, by simp [hfits.2], by simp [hfits.2]⟩
      rintro u hu
      cases hu
      exact ⟨hadmits, hall _ (by simp)⟩

theorem child : ReadsOf F P (.one (.node rules) :: slots) slots (child what) fun n =>
    n.rule ∈ rules ∧ P (.node n) := by
  intro span cs hrow
  obtain ⟨n, cs', rfl, hrule, hP, hrow'⟩ := hrow.child
  exact .done ⟨⟨hrule, hP⟩, hrow'⟩

/-- A node of one of some rules is taken exactly where it fills the slot for it. -/
theorem childOf? : ReadsOf F P (.optional (.node rules) :: slots) slots (childOf? rules) fun n? =>
    ∀ n, n? = some n → n.rule ∈ rules ∧ P (.node n) := by
  rintro span cs ⟨hfill, hall⟩
  match cs with
  | [] => exact .done ⟨by simp, hfill, by simp⟩
  | .token t :: cs =>
      rw [fill_optional_of_not_fits (by rfl)] at hfill
      exact .done ⟨by simp, hfill, hall⟩
  | .node n :: cs =>
      have hrun : Shape.childOf? rules span (.node n :: cs) =
          if rules.contains n.rule then .ok (some n, cs) else .ok (none, .node n :: cs) := by
        change (if rules.contains n.rule = true then (do set cs; pure (some n)) else pure none :
          Reading (Option Node)) span (.node n :: cs) = _
        split <;> rfl
      rw [hrun]
      refine .ite (fun hrule => .done ?_) fun hrule => .done ?_
      · rw [fill_optional_of_fits (by simpa [Part.fits] using hrule)] at hfill
        refine ⟨?_, hfill, fun c hc => hall c (by simp [hc])⟩
        intro m hm
        cases hm
        exact ⟨by simpa using hrule, hall _ (by simp)⟩
      · rw [fill_optional_of_not_fits (by simpa [Part.fits] using hrule)] at hfill
        exact ⟨by simp, hfill, hall⟩

theorem childrenOf : ReadsOf F P (.many (.node rules) :: slots) slots (childrenOf rules) fun ns =>
    ∀ n ∈ ns, n.rule ∈ rules ∧ P (.node n) := by
  rintro span cs ⟨hfill, hall⟩
  have hfits : (fun part : Element => part.node?.any fun n => rules.contains n.rule) =
      (Part.node rules).fits := by
    funext part
    cases part <;> rfl
  have hrun : Shape.childrenOf rules span cs = .ok
      (Element.nodes (cs.takeWhile (Part.node rules).fits), cs.dropWhile (Part.node rules).fits) := by
    rw [← hfits]
    rfl
  rw [hrun]
  have hrow : RowOf P [.many (.node rules)] (cs.takeWhile (Part.node rules).fits) :=
    ⟨fill_many_nil.mpr fun _ => List.mem_takeWhile_imp,
      fun c hc => hall c ((List.takeWhile_sublist _).mem hc)⟩
  exact .done ⟨hrow.nodes, hfill, fun c hc => hall c ((List.dropWhile_sublist _).mem hc)⟩

theorem word (hp : ∀ n, p.fits (.node n) = false) :
    ReadsOf F P (.one p :: slots) slots (word what) fun w =>
      ∃ t, p.admits t ∧ P (.token t) ∧ t.text = w :=
  (token hp).bind fun t ht => .done ⟨t, ht.1, ht.2, rfl⟩

theorem id {of : Referent} {name : String → Prop}
    (hname : ∀ t, P (.token t) → t.isWord → name t.text) :
    ReadsOf F P (.one .word :: slots) slots (id what : Reading (Id of)) fun i => name i.name := by
  refine (word (p := .word) fun _ => rfl).bind fun w hw => .done ?_
  obtain ⟨t, hword, ht, rfl⟩ := hw
  exact hname t ht hword

theorem string : ReadsOf F P (.one .string :: slots) slots (string what) fun _ => True := by
  refine (token (p := .string) fun _ => rfl).bind fun t ht => .lift ?_
  obtain ⟨value, hvalue⟩ := Option.isSome_iff_exists.mp ht.1
  rw [stringOf, hvalue]
  exact .done trivial

/-- A number is read from a token that says it. -/
theorem number : ReadsOf F P (.one .number :: slots) slots (number what) fun p =>
    ∃ t, t.kind = .number ∧ P (.token t) ∧
      Text.Integer.word? t.text.toList = some p.1 ∧ t.span = p.2 := by
  refine (token (p := .number) fun _ => rfl).bind fun t ht => ?_
  obtain ⟨hkind, hvalue⟩ : t.kind = .number ∧ (Text.Integer.word? t.text.toList).isSome := by
    simpa [Part.admits] using ht.1
  obtain ⟨value, hvalue⟩ := Option.isSome_iff_exists.mp hvalue
  rw [hvalue]
  exact .done ⟨t, hkind, ht.2, hvalue, rfl⟩

end ReadsOf

namespace Reads

variable {α β : Type} {r : Reading α} {Q : α → Prop} {R : β → Prop}

theorem bind {f : α → Reading β} (hr : Reads E slots slots' r Q)
    (hf : ∀ a, Q a → Reads E slots' slots'' (f a) R) : Reads E slots slots'' (r >>= f) R :=
  ReadsOf.bind hr hf

/-! ### Parts -/

theorem token (hp : ∀ n, p.fits (.node n) = false) :
    Reads E (.one p :: slots) slots (token what) fun t => p.admits t ∧ t.Allows E :=
  (ReadsOf.token hp).mono fun _ ht => ht.imp_right Element.every_token.mp

theorem token? (hp : ∀ n, p.fits (.node n) = false) :
    Reads E [.optional p] [] token? fun t? => ∀ t ∈ t?, p.admits t ∧ t.Allows E :=
  (ReadsOf.token? hp).mono fun _ ht t hmem => (ht t hmem).imp_right Element.every_token.mp

theorem child : Reads E (.one (.node rules) :: slots) slots (child what) fun n =>
    n.rule ∈ rules ∧ n.Legible E :=
  ReadsOf.child.mono fun _ hn => hn.imp_right Element.every_node.mp

theorem childOf? : Reads E (.optional (.node rules) :: slots) slots (childOf? rules) fun n? =>
    ∀ n, n? = some n → n.rule ∈ rules ∧ n.Legible E :=
  ReadsOf.childOf?.mono fun _ hn n hsome => (hn n hsome).imp_right Element.every_node.mp

/-! ### Values -/

theorem word (hp : ∀ n, p.fits (.node n) = false) :
    Reads E (.one p :: slots) slots (word what) fun w => ∃ t, p.admits t ∧ t.Allows E ∧ t.text = w :=
  (token hp).bind fun t ht => .done ⟨t, ht.1, ht.2, rfl⟩

theorem id {of : Referent} :
    Reads E (.one .word :: slots) slots (id what : Reading (Id of)) fun i => E.name i.name :=
  ReadsOf.id fun _ ht => (Element.every_token.mp ht).named

theorem string : Reads E (.one .string :: slots) slots (string what) fun _ => True :=
  ReadsOf.string

theorem wordOrString :
    Reads E (.one .label :: slots) slots (wordOrString what) fun v => E.name v ∨ E.quote v := by
  refine (token (p := .label) fun _ => rfl).bind fun t ht => .done ?_
  cases hv : t.stringValue? with
  | some value => exact .inr (ht.2.quoted value hv)
  | none =>
      have hword : t.isWord := by simpa [Part.admits, Token.isString, hv] using ht.1
      exact .inl (ht.2.named hword)

theorem boolean : Reads E (.one .boolean :: slots) slots (boolean what) fun _ => True := by
  refine (token (p := .boolean) fun _ => rfl).bind fun t ht => ?_
  have hkind : t.kind = .boolean true ∨ t.kind = .boolean false := by
    simpa [Part.admits] using ht.1
  rcases hkind with hkind | hkind <;> rw [hkind] <;> exact .done trivial

theorem number : Reads E (.one .number :: slots) slots (number what) fun p =>
    ∀ what ∈ Token.measures, ∀ value, E.fault (.outOfRange what value p.2) := by
  refine ReadsOf.number.mono fun p ht => ?_
  obtain ⟨t, -, ht, -, hspan⟩ := ht
  exact hspan ▸ (Element.every_token.mp ht).outOfRange

end Reads

theorem countOf_gives {value : Int64} {span : Span} (h : F (.outOfRange what value.toInt span)) :
    Gives F (countOf what value span) fun _ => True := by
  unfold countOf
  split
  · exact .done trivial
  · exact .fail h

namespace Reads

theorem count (hwhat : what ∈ Token.measures) :
    Reads E (.one .number :: slots) slots (count what) fun _ => True :=
  number.bind fun _ h => .lift (countOf_gives (h what hwhat _))

theorem positive (hwhat : what ∈ Token.measures) :
    Reads E (.one .number :: slots) slots (positive what) fun _ => True := by
  refine number.bind fun p h => (ReadsOf.lift (countOf_gives (h what hwhat _))).bind fun n _ => ?_
  split
  · exact fun _ _ _ => .fail (h what hwhat _)
  · exact .done trivial

end Reads

end Shape

open Shape

namespace RowOf

variable {F : ShapeFault → Prop} {P : Element → Prop} {slots slots' : List Slot} {α : Type}
  {r : Reading α} {Q : α → Prop} {n : Node}

theorem parts (h : RowOf P slots n.children) (hr : ReadsOf F P slots [] r Q) :
    Gives F (n.parts r) Q :=
  (hr n.span n.children h).map fun _ hp => hp.1

theorem head (h : RowOf P slots n.children) (hr : ReadsOf F P slots slots' r Q) :
    Gives F (n.head r) fun p => Q p.1 ∧ RowOf P slots' p.2 :=
  hr n.span n.children h

end RowOf

namespace Row

variable {E : Expected} {slots slots' : List Slot} {α : Type}
  {r : Reading α} {Q : α → Prop} {n : Node}

theorem parts (h : Row E slots n.children) (hr : Reads E slots [] r Q) :
    Gives E.fault (n.parts r) Q :=
  RowOf.parts h hr

theorem head (h : Row E slots n.children) (hr : Reads E slots slots' r Q) :
    Gives E.fault (n.head r) fun p => Q p.1 ∧ Row E slots' p.2 :=
  RowOf.head h hr

end Row

end Storyworld
