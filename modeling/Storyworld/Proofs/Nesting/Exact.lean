import Mathlib.Order.Bounds.Basic
import Storyworld.Outcome
import Storyworld.Proofs.Nesting.Building
import Storyworld.Proofs.Nesting.Reading
import Storyworld.Proofs.Token.Tiling

namespace Storyworld

/-! How deep condition groups and schedules may lie inside one another: reading and building count
their levels in the same way. -/

variable {source : List Char} {tokens : List Token} {x y : Settings}

namespace Tree

/-- What is read with some settings is no deeper than they allow. -/
theorem nesting_ofTokens_le (h : Lexer.tokens source = .ok tokens) (y : Settings) :
    (ofTokens y tokens).tree.root.nesting ≤ y.maxNesting := by
  have hgrown := ofTokens_grown y h
  rw [Node.nesting_le_of_not_nests (by rw [List.mem_singleton.mp hgrown.root.1]; decide)]
  exact hgrown.nesting

/-- Where tokens are read without a fault, they are read the same with other settings if these allow
for the nesting in the tree. -/
theorem ofTokens_of_nesting_le (hx : (ofTokens x tokens).faults = [])
    (hy : (ofTokens x tokens).tree.root.nesting ≤ y.maxNesting) :
    ofTokens y tokens = ofTokens x tokens := by
  rcases ofTokens_follows (y := y) hx with hsame | ⟨hlt, -, -⟩
  · exact hsame
  · omega

/-- If they do not, the first fault is that something lies too deep; and there are more tokens than
levels. -/
theorem ofTokens_of_lt_nesting (h : Lexer.tokens source = .ok tokens)
    (hx : (ofTokens x tokens).faults = [])
    (hy : y.maxNesting < (ofTokens x tokens).tree.root.nesting) :
    y.maxNesting < tokens.length ∧
      ∃ span, (ofTokens y tokens).faults.head? = some ⟨.nestingTooDeep y.maxNesting, span⟩ := by
  rcases ofTokens_follows (y := y) hx with hsame | ⟨-, hlength, span, hfirst⟩
  · have hle := nesting_ofTokens_le h y
    rw [hsame] at hle
    omega
  · obtain ⟨later, hfaults⟩ := hfirst
    refine ⟨hlength.trans_le (List.length_filter_le _ _), span, ?_⟩
    rw [← hfaults]
    rfl

theorem faults_ofTokens_eq_nil_iff (h : Lexer.tokens source = .ok tokens)
    (hx : (ofTokens x tokens).faults = []) :
    (ofTokens y tokens).faults = [] ↔ (ofTokens x tokens).tree.root.nesting ≤ y.maxNesting := by
  constructor
  · intro hy
    by_contra hlt
    obtain ⟨-, span, hfirst⟩ := ofTokens_of_lt_nesting h hx (not_le.mp hlt)
    simp [hy] at hfirst
  · intro hle
    rw [ofTokens_of_nesting_le hx hle, hx]

end Tree

namespace Built

/-- What is read without a fault and built without one is built with other settings, unless there is
more nesting in it than they allow. -/
theorem ofTree_ofTokens_onlyDeep (h : Lexer.tokens source = .ok tokens) {z : Settings}
    (hz : (ofTree z (Tree.ofTokens x tokens).tree).faults = []) (y : Settings) :
    Shape.OnlyDeep y.maxNesting ((Tree.ofTokens x tokens).tree.root.nesting ≤ y.maxNesting)
      (ofTree y (Tree.ofTokens x tokens).tree).faults := by
  have hgrown := Tree.ofTokens_grown x h
  have hfilled := Node.Every.mono hgrown.root.2 (fun _ hm => hm.filled) fun _ ht => ht
  exact ofTree_onlyDeep (List.mem_singleton.mp hgrown.root.1) hfilled hz

/-- The number that is out of range is one more than the limit, unless it is no number of 64 bits; and
it is one in a source of any size there can be, as a tree that goes beyond the limit has more tokens. -/
theorem exists_of_mem_faults_ofTree (h : Lexer.tokens source = .ok tokens)
    (hx : (Tree.ofTokens x tokens).faults = []) {z : Settings}
    (hz : (ofTree z (Tree.ofTokens x tokens).tree).faults = []) {f : ShapeFault}
    (hf : f ∈ (ofTree y (Tree.ofTokens x tokens).tree).faults) :
    ∃ (value : Int) (span : Span), f = .outOfRange "nesting depth" value span ∧
      value = min ((y.maxNesting : Int) + 1) Int64.maxValue.toInt ∧
      (source.length ≤ Int64.maxValue.toInt → value = y.maxNesting + 1) := by
  have hbuilt := ofTree_ofTokens_onlyDeep h hz y
  obtain ⟨n, rfl⟩ := hbuilt.tooDeep f hf
  refine ⟨_, n.span, rfl, rfl, ?_⟩
  intro hsize
  have hlt : y.maxNesting < (Tree.ofTokens x tokens).tree.root.nesting := by
    by_contra hle
    rw [hbuilt.nil_iff.mpr (not_lt.mp hle)] at hf
    simp at hf
  have htokens := (Tree.ofTokens_of_lt_nesting h hx hlt).1
  have hlength := Lexer.tokens_length_le h
  omega

end Built

namespace Outcome

open Shape

/-- Nothing that was read lies too deep for being built. -/
theorem not_deep_of_mem_faults (y : Settings) (source : List Char) {f : ShapeFault}
    (hf : .shape f ∈ (ofSource y source).faults) : ¬IsDeep f := by
  unfold ofSource at hf
  split at hf
  · simp [ofLexFault] at hf
  · rename_i tokens h
    have hgrown := Tree.ofTokens_grown y h
    have hfilled := Node.Every.mono hgrown.root.2 (fun _ hm => hm.filled) fun _ ht => ht
    have hrow := (Tree.ofTokens y tokens).tree.root.filled_row hfilled
    rw [List.mem_singleton.mp hgrown.root.1] at hrow
    have hbuilt : f ∈ (Built.ofTree y (Tree.ofTokens y tokens).tree).faults := by
      simpa [ofTokens] using hf
    change f ∈ (Built.ofNodes _ _).faults at hbuilt
    rw [Built.faults_ofNodes] at hbuilt
    obtain ⟨n, hn, hfault⟩ := List.mem_flatMap.mp hbuilt
    rw [Built.faults_ofNode] at hfault
    exact definition_of_nesting_le (hrow.nodes n hn).1 (hfilled.node hn) (hgrown.nesting n hn) f hfault

/-- The bound on nesting is exact, and reading and building agree on it. Let tokens be read without a
fault, and `D` be the greatest number of condition groups and schedules around a place in the tree.
Reading with another bound finds no fault exactly where the bound is not below `D`, and then gives the
same tree; otherwise the first fault is that something lies too deep. If the tree can be built without
a fault, building it with another bound finds none exactly where the bound is not below `D`, and
otherwise nothing but nesting out of range, by one level more than the bound. And what was read is
never found too deep when it is built. -/
theorem nesting_exact (h : Lexer.tokens source = .ok tokens)
    (hx : (Tree.ofTokens x tokens).faults = []) :
    let T := (Tree.ofTokens x tokens).tree
    ∃ D, IsGreatest {k | ∃ m, T.root.Encloses k m} D ∧
      (∀ y : Settings,
        ((Tree.ofTokens y tokens).faults = [] ↔ D ≤ y.maxNesting) ∧
        (D ≤ y.maxNesting → (Tree.ofTokens y tokens).tree = T) ∧
        (y.maxNesting < D → ∃ span,
          (Tree.ofTokens y tokens).faults.head? = some ⟨.nestingTooDeep y.maxNesting, span⟩)) ∧
      (∀ z : Settings, (Built.ofTree z T).faults = [] → ∀ y : Settings,
        ((Built.ofTree y T).faults = [] ↔ D ≤ y.maxNesting) ∧
        ∀ f ∈ (Built.ofTree y T).faults, ∃ (value : Int) (span : Span),
          f = .outOfRange "nesting depth" value span ∧
          value = min ((y.maxNesting : Int) + 1) Int64.maxValue.toInt ∧
          (source.length ≤ Int64.maxValue.toInt → value = y.maxNesting + 1)) ∧
      ∀ (y : Settings) (source' : List Char) (value : Int) (span : Span),
        .shape (.outOfRange "nesting depth" value span) ∉ (ofSource y source').faults := by
  intro T
  refine ⟨T.root.nesting, T.root.nesting_isGreatest, ?_, ?_, ?_⟩
  · intro y
    refine ⟨Tree.faults_ofTokens_eq_nil_iff h hx, ?_, ?_⟩
    · intro hle
      rw [Tree.ofTokens_of_nesting_le hx hle]
    · intro hlt
      exact (Tree.ofTokens_of_lt_nesting h hx hlt).2
  · intro z hz y
    use (Built.ofTree_ofTokens_onlyDeep h hz y).nil_iff
    intro f hf
    exact Built.exists_of_mem_faults_ofTree h hx hz hf
  · intro y source' value span hf
    exact not_deep_of_mem_faults y source' hf ⟨value, span, rfl⟩

/-- A schedule whose guard is a group: both have one level around what is in them. -/
def guardedGroup : String :=
  "trigger \"t\" when always \x7b do schedule in 2 if all(has flag f) \x7b do show \"s\" \x7d \x7d"

theorem nesting_exact_guardedGroup :
    let tokens := Lexer.tokensOf guardedGroup
    let tree := (Tree.ofTokens {} tokens).tree
    Lexer.tokens guardedGroup.toList = .ok tokens ∧ (Built.ofTree {} tree).faults = [] ∧
      (Tree.ofTokens { maxNesting := 1 } tokens).tree = tree ∧
      (∃ span, (Tree.ofTokens { maxNesting := 0 } tokens).faults.head? =
        some ⟨.nestingTooDeep 0, span⟩) ∧
      ∃ span, .outOfRange "nesting depth" 1 span ∈ (Built.ofTree { maxNesting := 0 } tree).faults := by
  intro tokens tree
  have h : Lexer.tokens guardedGroup.toList = .ok tokens := by decide +kernel
  have hx : (Tree.ofTokens {} tokens).faults = [] := by decide +kernel
  have hz : (Built.ofTree {} tree).faults = [] := by decide +kernel
  have hdepth : tree.root.nesting = 1 := by decide +kernel
  have hsize : (guardedGroup.toList.length : Int) ≤ Int64.maxValue.toInt := by decide +kernel
  obtain ⟨D, hgreatest, hread, hbuild, -⟩ := nesting_exact h hx
  obtain rfl : D = 1 := (hgreatest.unique tree.root.nesting_isGreatest).trans hdepth
  obtain ⟨hiff, hdeep⟩ := hbuild {} hz { maxNesting := 0 }
  refine ⟨h, hz, (hread { maxNesting := 1 }).2.1 (Nat.le_refl 1), ?_, ?_⟩
  · exact (hread { maxNesting := 0 }).2.2 Nat.one_pos
  · have hne : (Built.ofTree { maxNesting := 0 } tree).faults ≠ [] :=
      fun hnil => absurd (hiff.mp hnil) (Nat.not_succ_le_zero 0)
    obtain ⟨f, hf⟩ := List.exists_mem_of_ne_nil _ hne
    obtain ⟨value, span, rfl, -, hvalue⟩ := hdeep f hf
    rw [hvalue hsize] at hf
    exact ⟨span, hf⟩

end Outcome

end Storyworld
