import Storyworld.Outcome
import Storyworld.Proofs.Shape.Faults
import Storyworld.Proofs.Token.Word

namespace Storyworld

/-! Every place that reading a source tells is accurate: those of its tokens, of the fault in their
place, of the tree, and of everything in the outcome. -/

/-! ## All places -/

/-- The places of the tokens of a source, or of the fault in their place. -/
def Lexer.spans (source : List Char) : List Span :=
  match Lexer.tokens source with
  | .ok tokens => tokens.map (·.span)
  | .error fault => [fault.span]

/-- The places in a tree: those of its nodes, its tokens and the comments. -/
def Tree.spans (t : Tree) : List Span :=
  t.root.family.map (·.span) ++ t.root.leaves.map (·.span) ++ t.comments

/-- The places in what the grammar makes of a source. -/
def Parsed.spans (p : Parsed) : List Span :=
  p.tree.spans ++ p.faults.map (·.span)

/-- The places in an outcome. -/
def Outcome.spans (o : Outcome) : List Span :=
  o.faults.map (·.span) ++ o.warnings.map (·.span) ++ o.document.toList.flatMap (·.spans)

/-! ## Warnings -/

namespace Lint

theorem mem_pairs {ns : List Node} {w : Lint} (h : w ∈ pairs ns) : ∃ n ∈ ns, w.span = n.span := by
  induction ns using pairs.induct with
  | case1 a b more ih =>
      rw [pairs] at h
      rcases List.mem_append.mp h with h | h
      · split at h
        · rw [List.mem_singleton.mp h]
          exact ⟨b, by simp, rfl⟩
        · cases h
      · obtain ⟨n, hn, hspan⟩ := ih h
        exact ⟨n, List.mem_cons_of_mem _ hn, hspan⟩
  | case2 ns hns =>
      rw [pairs] at h
      · cases h
      · exact hns

theorem mem_ofGroup {n : Node} {w : Lint} (h : w ∈ ofGroup n) : ∃ m ∈ n.nodes, w.span = m.span := by
  unfold ofGroup at h
  split at h
  · exact mem_pairs h
  · cases h

variable {P : Node → Prop} {T : Token → Prop} {w : Lint}

mutual

/-- A warning is about a node of the tree. -/
theorem mem_ofNode : ∀ n : Node, n.Every P T → w ∈ ofNode n → ∃ m, P m ∧ w.span = m.span
  | .mk r s cs, hn, h => by
    rw [ofNode] at h
    rcases List.mem_append.mp h with h | h
    · obtain ⟨m, hm, hspan⟩ := mem_ofGroup h
      exact ⟨m, (hn.node hm).here, hspan⟩
    · rw [Node.Every] at hn
      exact mem_ofParts cs hn.2 h

theorem mem_ofParts : ∀ cs : List Element, EveryIn P T cs → w ∈ ofParts cs →
    ∃ m, P m ∧ w.span = m.span
  | [], _, h => by simp [ofParts] at h
  | c :: cs, hcs, h => by
    rw [EveryIn] at hcs
    rw [ofParts] at h
    rcases List.mem_append.mp h with h | h
    · exact mem_ofPart c hcs.1 h
    · exact mem_ofParts cs hcs.2 h

theorem mem_ofPart : ∀ c : Element, c.Every P T → w ∈ ofPart c → ∃ m, P m ∧ w.span = m.span
  | .node n, hn, h => by
    rw [Element.Every] at hn
    rw [ofPart] at h
    exact mem_ofNode n hn h
  | .token t, _, h => by simp [ofPart] at h

end

end Lint

/-! ## Accuracy -/

variable {source : List Char} {settings : Settings} {tokens : List Token}

theorem ShapeFault.LiesIn.accurate {root : Node} {fault : ShapeFault} (h : fault.LiesIn root)
    (hnodes : ∀ n ∈ root.family, n.span.Accurate source)
    (hleaves : ∀ t ∈ root.leaves, t.span.Accurate source) : fault.span.Accurate source := by
  cases h with
  | missing hn => exact hnodes _ hn
  | empty hn => exact hnodes _ hn
  | repeated hn => exact hnodes _ hn
  | tooDeep hn => exact hnodes _ hn
  | outOfRange ht => exact hleaves _ ht
  | unknown ht => exact hleaves _ ht

end Storyworld

namespace Storyworld

/-! ## Names

The names in a document are words of its source. -/

open Token

/-- How a name can be written: as a proper id, or as the phrase. -/
def IsNameOrPhrase (w : String) : Prop :=
  IsName w ∨ IsPhrase w

variable {source : List Char} {settings : Settings} {document : Document}

/-- What is in the document of a source was built from the tree of its tokens. -/
theorem Outcome.definitions_built (h : (Outcome.ofSource settings source).document = some document) :
    ∃ tokens, Lexer.tokens source = .ok tokens ∧ document.definitions =
      (Built.ofTree settings (Tree.ofTokens settings tokens).tree).definitions := by
  unfold Outcome.ofSource at h
  split at h
  · cases h
  · rename_i tokens htokens
    refine ⟨tokens, htokens, ?_⟩
    simp only [Outcome.ofTokens] at h
    split at h <;> cases h
    rfl

/-- Every name in the document of a source is a proper id: not empty, of word characters only and no
truth value; or it is the phrase `only once`, which is a reserved word and has white space in it. A
spinner may also be defined under what a string of the source says. -/
theorem Outcome.ofSource_names (settings : Settings) (source : List Char) {document : Document}
    (h : (Outcome.ofSource settings source).document = some document) :
    ∃ tokens, Lexer.tokens source = .ok tokens ∧
      ∀ d ∈ document.definitions, d.Named IsNameOrPhrase ∧
        ∀ name ∈ d.spinnerName?,
          IsNameOrPhrase name ∨ ∃ t ∈ tokens, t.stringValue? = some name := by
  obtain ⟨tokens, htokens, hdefinitions⟩ := definitions_built h
  have hname : ∀ t ∈ tokens, t.isWord → IsNameOrPhrase t.text := Lexer.tokens_named htokens
  have hquote : ∀ t ∈ tokens, ∀ value, t.stringValue? = some value →
      ∃ t ∈ tokens, t.stringValue? = some value := fun t ht value hvalue => ⟨t, ht, hvalue⟩
  have hbuilt := Built.ofTree_ofTokens_sound settings settings htokens hname hquote
  refine ⟨tokens, htokens, fun d hd => ?_⟩
  rw [hdefinitions] at hd
  exact ⟨(hbuilt.definitions d hd).named, (hbuilt.definitions d hd).spinner⟩

theorem Outcome.ofSource_names_spinner :
    ∃ document,
      (Outcome.ofSource {} "spinner \"luck\" \x7b wedge \"win\" \x7d".toList).document = some document ∧
      ∃ tokens,
        Lexer.tokens "spinner \"luck\" \x7b wedge \"win\" \x7d".toList = .ok tokens ∧
        ∀ d ∈ document.definitions, d.Named IsNameOrPhrase ∧
          ∀ name ∈ d.spinnerName?,
            IsNameOrPhrase name ∨ ∃ t ∈ tokens, t.stringValue? = some name := by
  have hsome : (Outcome.ofSource {}
      "spinner \"luck\" \x7b wedge \"win\" \x7d".toList).document.isSome := by decide +kernel
  obtain ⟨document, h⟩ := Option.isSome_iff_exists.mp hsome
  exact ⟨document, h, ofSource_names {} _ h⟩

/-- Whether a definition is that of a room under a name. -/
def Definition.isRoomCalled (name : String) : Definition → Bool
  | room r => r.id.name = name
  | _ => false

/-- The phrase can be the name of a room, and it is no proper id. -/
theorem Outcome.ofSource_names_phrase :
    ∃ document, (Outcome.ofSource {} "room only once \x7b \x7d".toList).document = some document ∧
      ¬∀ d ∈ document.definitions, d.Named IsName := by
  have hany : (Outcome.ofSource {} "room only once \x7b \x7d".toList).document.any
      fun document => document.definitions.any (Definition.isRoomCalled "only once") := by
    decide +kernel
  obtain ⟨document, h, hcalled⟩ := (Option.any_eq_true _ _).mp hany
  obtain ⟨d, hd, hname⟩ := List.any_eq_true.mp hcalled
  refine ⟨document, h, fun hall => ?_⟩
  cases d with
  | room r =>
      have hproper : IsName r.id.name := (hall _ hd).1
      rw [of_decide_eq_true hname] at hproper
      exact absurd hproper (by decide)
  | _ => cases hname

end Storyworld
