import Storyworld.Proofs.Grammar.Document
import Storyworld.Proofs.Shape.Triggers
import Storyworld.Proofs.Token.Lexer

namespace Storyworld

/-! Building whole documents from trees whose nodes fill their slots. -/

variable {E : Expected} {n : Node}

/-- What is told of a definition: its places, what it names, and how a spinner is called. -/
structure Definition.Tells (E : Expected) (d : Definition) : Prop where
  places : ∀ s ∈ d.spans, E.place s
  named : d.Named E.name
  spinner : ∀ name ∈ d.spinnerName?, E.name name ∨ E.quote name

namespace Shape

theorem definition_collects (hr : n.rule ∈ Rule.definitions) (h : n.Legible E) :
    Collects E.fault (definition E.limit n) (Definition.Tells E) := by
  have hspan {span : Span} (hs : E.place span) : ∀ s ∈ [span], E.place s := by simpa using hs
  unfold definition
  split
  · exact (Collects.lift (roomSet_gives ‹_› h)).bind fun d hd => .done ⟨hspan hd.1, hd.2, nofun⟩
  · exact (room_collects ‹_› h).bind fun d hd => .done ⟨hd.1, hd.2, nofun⟩
  · exact (item_collects ‹_› h).bind fun d hd => .done ⟨hspan hd.1, hd.2, nofun⟩
  · exact (npc_collects ‹_› h).bind fun d hd => .done ⟨hd.1, hd.2, nofun⟩
  · exact (trigger_collects ‹_› h).bind fun d hd => .done ⟨hd.1, hd.2, nofun⟩
  · refine (Collects.lift (spinner_gives ‹_› h)).bind fun d hd => .done ⟨hd.1, trivial, ?_⟩
    rintro name ⟨⟩
    exact hd.2
  · exact (goal_collects ‹_› h).bind fun d hd => .done ⟨hspan hd.1, hd.2, nofun⟩
  · simp_all [Rule.definitions]

end Shape

open Shape

namespace Built

/-- Definitions and faults that are as expected. -/
structure Sound (E : Expected) (b : Built) : Prop where
  definitions : ∀ d ∈ b.definitions, d.Tells E
  faults : ∀ f ∈ b.faults, E.fault f

theorem Sound.append {a b : Built} (ha : a.Sound E) (hb : b.Sound E) : (a ++ b).Sound E := by
  constructor
  · intro d hd
    rcases List.mem_append.mp hd with hd | hd
    · exact ha.definitions d hd
    · exact hb.definitions d hd
  · intro f hf
    rcases List.mem_append.mp hf with hf | hf
    · exact ha.faults f hf
    · exact hb.faults f hf

theorem ofNode_sound (hr : n.rule ∈ Rule.definitions) (h : n.Legible E) :
    (ofNode E.limit n).Sound E := by
  have hdefinition : Collects E.fault (Shape.definition E.limit n) (Definition.Tells E) :=
    definition_collects hr h
  unfold ofNode
  split
  · rename_i d hrun
    obtain ⟨hd, -⟩ := hdefinition.ok (by simp) hrun
    exact ⟨by simpa using hd, by simp⟩
  · rename_i d faults _ hrun
    obtain ⟨-, hfaults⟩ := hdefinition.ok (by simp) hrun
    exact ⟨by simp, hfaults⟩
  · rename_i fault faults hrun
    obtain ⟨hfault, hfaults⟩ := hdefinition.error (by simp) hrun
    refine ⟨by simp, fun f hf => ?_⟩
    rcases List.mem_append.mp hf with hf | hf
    · exact hfaults f hf
    · rw [List.mem_singleton.mp hf]
      exact hfault

theorem ofNodes_sound {ns : List Node}
    (h : ∀ n ∈ ns, n.rule ∈ Rule.definitions ∧ n.Legible E) : (ofNodes E.limit ns).Sound E := by
  induction ns with
  | nil => exact ⟨by simp [ofNodes], by simp [ofNodes]⟩
  | cons n ns ih =>
      obtain ⟨hr, hlegible⟩ := h n (by simp)
      exact (ofNode_sound hr hlegible).append (ih fun m hm => h m (by simp [hm]))

theorem ofTree_sound {settings : Settings} {tree : Tree} (hr : tree.root.rule = .sourceFile)
    (h : tree.root.Legible E) (hlimit : E.limit = settings.maxNesting) :
    (ofTree settings tree).Sound E := by
  have hrow := h.row
  rw [hr] at hrow
  have hnodes : (ofNodes settings.maxNesting tree.root.nodes).Sound E :=
    hlimit ▸ ofNodes_sound hrow.nodes
  exact ⟨hnodes.definitions, hnodes.faults⟩

end Built

end Storyworld

namespace Storyworld

/-! ## What can be at fault

What the builder can find at fault in a tree that the grammar made. -/

/-- The faults that a tree can have whose nodes fill their slots, and where each one lies. -/
inductive ShapeFault.LiesIn (root : Node) : ShapeFault → Prop where
  | missing {n : Node} {what : String} (hn : n ∈ root.family) (h : what ∈ n.rule.leftOpen) :
      LiesIn root (.missing what n.span)
  | empty {n : Node} {what : String} (hn : n ∈ root.family) : LiesIn root (.empty what n.span)
  | repeated {n : Node} {what : String} (hn : n ∈ root.family) :
      LiesIn root (.repeated what n.span)
  | tooDeep {n : Node} {what : String} {value : Int} (hn : n ∈ root.family) :
      LiesIn root (.outOfRange what value n.span)
  | outOfRange {t : Token} {what : String} {value : Int} (ht : t ∈ root.leaves) :
      LiesIn root (.outOfRange what value t.span)
  | unknown {t : Token} {what : String} {expected : List String} (ht : t ∈ root.leaves)
      (h : what ∈ Token.looseSets) : LiesIn root (.unknownWord what t.text expected t.span)

/-- A tree whose nodes fill their slots can be built up to the faults it can have; it names what its
words are and quotes what its strings say. -/
theorem Node.Sound.legible {T : Token → Prop} {S : Span → Prop} {name quote : String → Prop}
    {n : Node} {limit : Nat} (h : n.Sound T S) (hname : ∀ t, T t → t.isWord → name t.text)
    (hquote : ∀ t, T t → ∀ value, t.stringValue? = some value → quote value) :
    n.Legible ⟨ShapeFault.LiesIn n, S, name, quote, limit⟩ := by
  refine (Every.and h n.every_self).mono ?_ ?_
  · rintro m ⟨hapt, hm⟩
    exact ⟨hapt.filled, hapt.span, fun _ h => .missing hm h, fun _ => .empty hm, fun _ => .repeated hm,
      .tooDeep hm⟩
  · rintro t ⟨hsound, ht⟩
    exact ⟨fun _ h _ => .unknown ht h, fun _ _ _ => .outOfRange ht, hname t hsound, hquote t hsound⟩

variable {source : List Char} {tokens : List Token}

/-- What is known of the tree of a source. -/
theorem Tree.ofTokens_grown (settings : Settings) (h : Lexer.tokens source = .ok tokens) :
    (Tree.ofTokens settings tokens).Sound settings (· ∈ tokens) (Span.Accurate source) := by
  have htokens := Lexer.tokens_writtenIn h
  refine Tree.ofTokens_sound (fun t ht => (htokens t ht).2) ?_ .origin (fun t ht => ht)
    (Lexer.tokens_inOrder h)
  exact ⟨fun t ht => (htokens t ht).1.accurate, fun a b ha hb => ha.upTo hb,
    Lexer.endOf_accurate fun t ht => (htokens t ht).1⟩

/-- What building the tree of a source makes: its faults lie in the tree, its places are accurate, it
names what the words of the source are and quotes what the strings say. -/
theorem Built.ofTree_ofTokens_sound {name quote : String → Prop} (settings settings' : Settings)
    (h : Lexer.tokens source = .ok tokens) (hname : ∀ t ∈ tokens, t.isWord → name t.text)
    (hquote : ∀ t ∈ tokens, ∀ value, t.stringValue? = some value → quote value) :
    (ofTree settings' (Tree.ofTokens settings tokens).tree).Sound
      ⟨ShapeFault.LiesIn (Tree.ofTokens settings tokens).tree.root, Span.Accurate source, name,
        quote, settings'.maxNesting⟩ := by
  obtain ⟨hrule, hsound⟩ := (Tree.ofTokens_grown settings h).root
  exact ofTree_sound (List.mem_singleton.mp hrule) (hsound.legible hname hquote) rfl

/-- The faults of building the tree of a source lie in the tree, and its places are accurate. -/
theorem Built.ofTree_ofTokens_liesIn (settings settings' : Settings)
    (h : Lexer.tokens source = .ok tokens) :
    (ofTree settings' (Tree.ofTokens settings tokens).tree).Sound
      ⟨ShapeFault.LiesIn (Tree.ofTokens settings tokens).tree.root, Span.Accurate source,
        fun _ => True, fun _ => True, settings'.maxNesting⟩ :=
  ofTree_ofTokens_sound settings settings' h (fun _ _ _ => trivial) fun _ _ _ _ => trivial

namespace Built

/-- The grammar never hands over a tree in which something is missing that it could have asked for.
Every node has the parts its rule asks for; what is missing is content that the grammar leaves open,
at the node it is missing from; and a word outside its set is the state of an npc, the state of a
container or the group of a goal. -/
theorem ofTree_ofTokens_faults {source : List Char} {tokens : List Token}
    (h : Lexer.tokens source = .ok tokens) (settings settings' : Settings) :
    (∀ n ∈ (Tree.ofTokens settings tokens).tree.root.family, n.isFilled) ∧
    (∀ what span,
      .missing what span ∈ (ofTree settings' (Tree.ofTokens settings tokens).tree).faults →
      ∃ n ∈ (Tree.ofTokens settings tokens).tree.root.family,
        what ∈ n.rule.leftOpen ∧ n.span = span) ∧
    ∀ what value expected span,
      .unknownWord what value expected span ∈
        (ofTree settings' (Tree.ofTokens settings tokens).tree).faults →
      what ∈ ["npc state", "container state", "goal group"] := by
  obtain ⟨-, hsound⟩ := (Tree.ofTokens_grown settings h).root
  have hbuilt := ofTree_ofTokens_liesIn settings settings' h
  refine ⟨fun n hn => ?_, fun what span hfault => ?_, fun what value expected span hfault => ?_⟩
  · exact (((Node.every_iff_lists _).mp hsound).1 n hn).filled
  · cases hbuilt.faults _ hfault with
    | missing hn hopen => exact ⟨_, hn, hopen, rfl⟩
  · cases hbuilt.faults _ hfault with
    | unknown ht hwhat => exact hwhat

theorem ofTree_ofTokens_faults_goal :
    Lexer.tokens "goal g \x7b fail has flag f \x7d".toList =
        .ok (Lexer.tokensOf "goal g \x7b fail has flag f \x7d") ∧
      ∀ what span,
        .missing what span ∈ (ofTree {} (Tree.ofTokens {}
          (Lexer.tokensOf "goal g \x7b fail has flag f \x7d")).tree).faults →
        ∃ n ∈ (Tree.ofTokens {}
          (Lexer.tokensOf "goal g \x7b fail has flag f \x7d")).tree.root.family,
          what ∈ n.rule.leftOpen ∧ n.span = span := by
  have h : Lexer.tokens "goal g \x7b fail has flag f \x7d".toList =
      .ok (Lexer.tokensOf "goal g \x7b fail has flag f \x7d") := by decide +kernel
  exact ⟨h, (ofTree_ofTokens_faults h {} {}).2.1⟩

end Built

end Storyworld
