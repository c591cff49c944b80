import Storyworld.Document.Shape
import Storyworld.Grammar.Phrase
import Storyworld.Proofs.Document.Spans
import Storyworld.Proofs.Grammar.Pieces
import Storyworld.Proofs.Shape.Reflects
import Storyworld.Proofs.Spelling.Changes
import Storyworld.Shape.Word

namespace Storyworld

/-! How the phrases that several constructs share are spelled, and that the grammar and the builder
read them back. -/

/-! ## Spellings -/

namespace Piece

/-- Ids with commas between them. -/
def ids (l : List (Id of)) : List Piece :=
  commas (fun i => [word i.name]) l

end Piece

namespace Mood

def pieces : Mood → List Piece
  | builtin mood => [.keyword mood.word]
  | custom name => [.keyword "custom", .word name.name]

/-- A mood that a source can spell. -/
def Writable : Mood → Prop
  | builtin _ => True
  | custom name => name.Writable

end Mood

namespace Ability

def pieces (a : Ability) : List Piece :=
  .keyword "ability" :: .word a.name.name ::
    a.target.toList.flatMap fun item => Piece.parens [.word item.name]

/-- An ability that a source can spell. -/
def Writable (a : Ability) : Prop :=
  a.name.Writable ∧ ∀ item ∈ a.target, item.Writable

end Ability

namespace Grammar

open Takes

variable {c : Context} {K : List Token → Prop} {N : Node → Prop} {r : Rule} {w s : String}

/-! ## Clauses with a value -/

theorem keywordThenString_takes
    (h : ∀ span span' text, N (.mk r span [.token ⟨.string s, span', text⟩])) :
    Takes c (keywordThenString r w) [.keyword w, .string s] K N :=
  .node <| .keyword <| .string fun _ _ => .done fun _ => h ..

theorem keywordThenNumber_takes {x : Int64}
    (h : ∀ span span', N (.mk r span [.token (.ofNumber x span')])) :
    Takes c (keywordThenNumber r w) [.keyword w, .number x] K N :=
  .node <| .keyword <| .number fun _ => .done fun _ => h ..

theorem keywordThenString_tells :
    Takes c (keywordThenString r w) [.keyword w, .string s] K fun n =>
      n.rule ∈ [r] ∧ QuotedBy s n :=
  keywordThenString_takes fun _ _ _ => ⟨List.mem_singleton_self r, _, _, rfl, rfl⟩

theorem keywordThenBoolean_tells {b : Bool} :
    Takes c (keywordThenBoolean r w) [.keyword w, .boolean b] K fun n =>
      n.rule ∈ [r] ∧ DecidedBy b n :=
  .node <| .keyword <| .boolean fun _ _ => .done fun _ =>
    ⟨List.mem_singleton_self r, _, _, rfl, rfl⟩

theorem description_tells :
    Takes c (description r) [.keyword "desc", .string s] K fun n => n.rule ∈ [r] ∧ QuotedBy s n :=
  .node <| .oneOf rfl fun _ => .string fun _ _ => .done fun _ =>
    ⟨List.mem_singleton_self r, _, _, rfl, rfl⟩

theorem containerState_tells :
    Takes c (containerState r) [.keyword "container", .keyword "state", .keyword w] K fun n =>
      n.rule ∈ [r] ∧ SpelledBy w n :=
  .node <| .keyword <| .keyword <| .reserved fun _ => .done fun _ =>
    ⟨List.mem_singleton_self r, _, _, rfl, rfl⟩

/-! ## Numbers -/

theorem number_gets {what : String} {x : Int64} {span : Span} {cs : List Element} :
    Shape.Gets (Shape.number what) (.token (.ofNumber x span) :: cs) (x, span) cs := by
  refine .bind (fun _ => rfl) fun _ => ?_
  simp only [Token.ofNumber, String.toList_ofList, Text.Integer.word?_numeral]
  rfl

theorem unsigned?_ofNat (n : UInt32) : Shape.unsigned? (.ofNat n.toNat) = some n := by
  have hn := n.toNat_lt
  have hint : (Int64.ofNat n.toNat).toInt = n.toNat := Int64.toInt_ofNat_of_lt (by omega)
  have hfits : 0 ≤ (n.toNat : Int) ∧ (n.toNat : Int) < UInt32.size := by
    constructor
    · omega
    · rw [UInt32.size]
      omega
  rw [Shape.unsigned?, hint, if_pos hfits]
  simp

theorem count_gets {what : String} {n : UInt32} {span : Span} {cs : List Element} :
    Shape.Gets (Shape.count what) (.token (.ofNumber (.ofNat n.toNat) span) :: cs) n cs := by
  refine .bind number_gets fun _ => ?_
  simp only [Shape.countOf, unsigned?_ofNat]
  rfl

theorem countedBy_of_number {uses : UInt32} (huses : 1 ≤ uses) {span place : Span} :
    CountedBy uses (.mk r span [.token (.ofNumber (.ofNat uses.toNat) place)]) := by
  have hint : (Int64.ofNat uses.toNat).toInt = uses.toNat :=
    Int64.toInt_ofNat_of_lt (by have := uses.toNat_lt; omega)
  refine ⟨_, _, _, rfl, ?_, hint, ?_⟩
  · simp only [Token.ofNumber, String.toList_ofList, Text.Integer.word?_numeral]
  · rintro rfl
    exact absurd huses (by decide)

theorem positive_gets {what : String} {n : UInt32} (hn : 1 ≤ n) {span : Span} {cs : List Element} :
    Shape.Gets (Shape.positive what) (.token (.ofNumber (.ofNat n.toNat) span) :: cs) n cs := by
  have hzero : n ≠ 0 := by
    rintro rfl
    exact absurd hn (by decide)
  refine .bind number_gets <| .lift (a := n) ?_ fun _ => ?_
  · simp only [Shape.countOf, unsigned?_ofNat]
  · simp only [hzero, if_false]
    rfl

/-! ## Phrases -/

theorem childOf_gets {rules : List Rule} {n : Node} {cs : List Element} (h : n.rule ∈ rules) :
    Shape.Gets (Shape.childOf? rules) (.node n :: cs) (some n) cs := by
  intro span
  change (if rules.contains n.rule then _ else _ : Shape.Reading _) span (.node n :: cs) = _
  rw [if_pos (by simpa using h)]
  rfl

/-- Pieces that begin with a word that names something. -/
theorem begins_word {i : Id of} {ps : List Piece} {test : Token → Bool} (hi : i.Writable)
    (h : ∀ t, t.isWord → test t = false) : Begins (.word i.name :: ps) K test false := by
  refine .cons ?_
  rintro _ ⟨span⟩
  exact h _ hi.isWord

theorem begins_keyword {ps : List Piece} {w : String} (h : w ≠ s) :
    Begins (.keyword w :: ps) K (·.isKeyword s) false := by
  refine .cons ?_
  rintro _ ⟨span⟩
  simpa [Token.isKeyword] using h

theorem begins_otherwise {ps : List Piece} {words : List String} (h : w ∉ words) :
    Begins (.keyword w :: ps) K (·.isOneOf words) false := by
  refine .cons ?_
  rintro _ ⟨span⟩
  rw [Bool.eq_false_iff, ne_eq, Token.isOneOf_iff]
  rintro ⟨k, hk, heq⟩
  cases heq
  exact h hk

/-- What is read as the mood `m`, in either of the two ways. -/
structure IsMood (m : Mood) (n : Node) : Prop where
  strict : Shape.strictMood n = .ok m
  lenient : Shape.lenientMood n = .ok m

theorem mood_takes {m : Mood} (hm : m.Writable) : Takes c mood m.pieces K (IsMood m) := by
  rw [mood_eq]
  cases m with
  | builtin mood =>
      refine .look _ (b := false) (fun ts rest hts _ => ?_) ?_
      · rw [hts.keyword_isKeyword rfl]
        cases mood <;> rfl
      · exact .node <| .reserved fun _ => .done fun _ => ⟨by cases mood <;> rfl, by cases mood <;> rfl⟩
  | custom name =>
      refine .look _ (b := true) (fun ts rest hts _ => ?_) ?_
      · rw [hts.keyword_isKeyword rfl, hts.any_at (p := .word name.name) (b := true) rfl]
        · rfl
        · rintro _ ⟨_⟩
          simp [Id.Writable.isWord hm]
      · refine .node <| .keyword <| .notEatMark (begins_word hm fun _ => Token.isMark_of_isWord) ?_
        exact .word hm fun _ => .done fun _ => ⟨rfl, rfl⟩

theorem IsMood.told {m : Mood} {n : Node} (h : IsMood m n) : m.ToldBy n :=
  Shape.strictMood_eq_ok.mp h.strict

theorem ability_tells {a : Ability} (ha : a.Writable)
    (hK : ∀ rest, K rest → Without (·.isMark .openParen) rest) :
    Takes c ability a.pieces K fun n => n.rule ∈ [.ability] ∧ a.ToldBy n := by
  obtain ⟨name, target⟩ := a
  refine .node <| .keyword <| .word ha.1 fun _ => ?_
  cases target with
  | none =>
      refine .notEatMark (.nil hK) <| .done fun _ => ?_
      exact ⟨List.mem_singleton_self _, _, _, rfl, rfl, rfl⟩
  | some item =>
      refine .eatMark rfl <| .word (ha.2 item rfl) fun _ => .mark rfl <| .done fun _ => ?_
      exact ⟨List.mem_singleton_self _, _, _, rfl, rfl, rfl⟩

/-- A clause around something that is said. -/
theorem heldBy_of_node {P : Node → Prop} {n : Node} {span : Span} (h : P n) :
    HeldBy P (.mk r span [.node n]) :=
  ⟨n, [], rfl, h⟩

/-- What is read as a list of ids. -/
structure IsIds (l : List (Id of)) (n : Node) : Prop where
  rule : n.rule = .idList
  built : ∀ what, n.ids what = .ok l

/-- A token that spells an id. -/
def IsId (i : Id of) (t : Token) : Prop :=
  t.text = i.name

theorem word_takes {i : Id of} {what : String} (hi : i.Writable) :
    Takes c (word what) [.word i.name] K (IsId i) := by
  rw [← bind_pure (word what)]
  exact .word hi fun _ => .done rfl

theorem isIds_of_tokens {l : List (Id of)} {ts : List Token} (hl : l ≠ [])
    (h : List.Forall₂ IsId l ts) (span : Span) : IsIds l (.mk .idList span (ts.map .token)) := by
  have hempty := Shape.isEmpty_of_forall₂ h hl
  have htexts : ts.map (fun t => (⟨t.text⟩ : Id of)) = l := by
    clear hempty hl
    induction h with
    | nil => rfl
    | cons ht _ ih => rw [List.map_cons, ih, ht]
  refine ⟨rfl, fun what => ?_⟩
  simp [Node.ids, Node.tokens, Node.children, hempty, htexts]

theorem IsIds.told {l : List (Id of)} {n : Node} (h : IsIds l n) : ListedBy l n :=
  Shape.ids_eq_ok.mp (h.built "ids")

theorem idList_takes {l : List (Id of)} {what : String} (hl : l ≠ []) (hw : ∀ i ∈ l, i.Writable) :
    Takes c (idList what) (Piece.parens (Piece.ids l)) K (IsIds l) := by
  cases l with
  | nil => exact absurd rfl hl
  | cons i l =>
      refine .node <| (Takes.parenthesized (K := Anything) (fun y hy => word_takes (hw y hy))
        (fun _ _ _ _ _ => trivial) (fun _ _ _ => trivial) (by simp) ?_).map
          fun ts hts span => isIds_of_tokens hl hts span
      exact begins_word (hw i (by simp)) fun _ => Token.isMark_of_isWord

/-- What is read as a clause that says `x`. -/
structure IsClause {β : Type} (r : Rule) (read : Shape.Reading β) (x : β) (n : Node) : Prop where
  rule : n.rule = r
  built : n.parts read = .ok x

/-- The value in a clause. -/
theorem clause_gets {β : Type} {read : Shape.Reading β} {x : β} {n : Node} {cs : List Element}
    (h : IsClause r read x n) :
    Shape.Gets (do
      match ← Shape.childOf? [r] with
      | some n => return some (← n.parts read)
      | none => return none) (.node n :: cs) (some x) cs :=
  .bind (childOf_gets (by simp [h.rule])) <| .lift h.built fun _ => rfl

/-- The value in a clause, if the clause is there. -/
theorem optional_gets {β : Type} {read : Shape.Reading β} {x? : Option β} {ns : List Node}
    {cs : List Element} (h : List.Forall₂ (IsClause r read) x?.toList ns)
    (hcs : Shape.Gets (Shape.childOf? [r]) cs none cs) :
    Shape.Gets (do
      match ← Shape.childOf? [r] with
      | some n => return some (← n.parts read)
      | none => return none) (ns.map .node ++ cs) x? cs := by
  cases x? with
  | none =>
      cases h
      exact .bind hcs fun _ => rfl
  | some x =>
      obtain ⟨n, ms, hn, hms, rfl⟩ := List.forall₂_cons_left_iff.mp h
      cases hms
      exact clause_gets hn

/-- A clause that may be left out, where nothing behind it begins as it does. -/
theorem optional_takes {γ : Type} {x? : Option γ} {f : γ → List Piece} {clause : Parse Node}
    {P : γ → Node → Prop} (hfirst : ∀ x ∈ x?, (f x).head? = some (.keyword w))
    (h : ∀ x ∈ x?, Takes c clause (f x) K (P x)) (hK : ∀ rest, K rest → Without (·.isKeyword w) rest) :
    Takes c (optional w clause) (x?.toList.flatMap f) K fun cs =>
      ∃ ns, cs = ns.map .node ∧ List.Forall₂ P x?.toList ns := by
  cases x? with
  | none => exact .notAtKeyword (.nil hK) <| .done ⟨[], rfl, .nil⟩
  | some x =>
      have hx := h x rfl
      rw [Option.toList_some, List.flatMap_singleton]
      obtain ⟨ps, hps⟩ : ∃ ps, f x = .keyword w :: ps := by
        obtain ⟨ps, hps⟩ := List.head?_eq_some_iff.mp (hfirst x rfl)
        exact ⟨ps, hps⟩
      rw [hps] at hx ⊢
      exact .atKeyword <| .last <| hx.mono fun n hn => ⟨[n], rfl, .cons hn .nil⟩

/-! ## Definitions -/

/-- Building a node gives the definition `d`, perhaps at another place. -/
def Says (limit : Nat) (d : Definition) (n : Node) : Prop :=
  Shape.Builds (Shape.definition limit n) (·.withoutSpans = d.withoutSpans)

theorem says_of_makes {β : Type} {limit : Nat} {d : Definition} {n : Node} {m : Shape.Collecting β}
    {f : β → Definition} {x : β} (hrun : Shape.definition limit n = (do return f (← m)))
    (h : Shape.Makes m x) (hd : (f x).withoutSpans = d.withoutSpans) : Says limit d n := by
  have hmakes : Shape.Makes (Shape.definition limit n) (f x) := by
    rw [hrun, Shape.makes_bind fun _ => .done _]
    exact ⟨x, h, Shape.makes_done.mpr rfl⟩
  exact (hmakes.builds (Shape.blind_definition limit n)).mono fun _ hd' => hd' ▸ hd

/-- The statements behind an id. -/
theorem nodes_named {t : Token} {ns : List Node} {span : Span} :
    (Node.mk r span (.token t :: ns.map .node)).nodes = ns :=
  Element.nodes_map ns

theorem map_eq_map {α β : Type} {f : α → β} {as bs : List α}
    (h : List.Forall₂ (fun a b => f a = f b) as bs) : as.map f = bs.map f := by
  rwa [← List.forall₂_eq_eq_eq, List.forall₂_map_left_iff, List.forall₂_map_right_iff]

end Grammar

end Storyworld
