import Storyworld.Proofs.Document.Segments
import Storyworld.Proofs.Grammar.Whole

namespace Storyworld

/-! A definition that is left in the tree stands on its own tokens: read alone, they give it again,
whatever was broken in front of it and behind it. -/

/-- Those of some tokens that lie in the region of a node. -/
def Node.tokensIn (n : Node) (tokens : List Token) : List Token :=
  tokens.filter fun t => decide (n.span.start ≤ t.span.start ∧ t.span.stop ≤ n.span.stop)

/-- Of tokens in order, those in the region of some of them are these. -/
theorem InOrder.filter_region {before behind ts : List Token} {region : Span}
    (h : InOrder (before ++ (ts ++ behind))) (hne : ts ≠ [])
    (hstart : region.start = (ts.head hne).span.start)
    (hstop : region.stop = (ts.getLast hne).span.stop) :
    (before ++ (ts ++ behind)).filter
      (fun t => decide (region.start ≤ t.span.start ∧ t.span.stop ≤ region.stop)) = ts := by
  have hin : ∀ t ∈ ts, region.start ≤ t.span.start ∧ t.span.stop ≤ region.stop := by
    intro t ht
    rw [hstart, hstop]
    refine ⟨?_, h.right.left.le_last hne ht⟩
    have hordered : InOrder (ts.head hne :: ts.tail) := by
      rw [List.cons_head_tail]
      exact h.right.left
    exact hordered.head_le (by rwa [List.cons_head_tail])
  have hbefore : ∀ t ∈ before, ¬region.start ≤ t.span.start := by
    intro t ht
    have hle := h.before ht (List.mem_append_left _ (List.head_mem hne))
    have hlt := h.lt t (List.mem_append_left _ ht)
    omega
  have hbehind : ∀ t ∈ behind, ¬t.span.stop ≤ region.stop := by
    intro t ht
    have hle := h.right.before (List.getLast_mem hne) ht
    have hlt := h.right.lt t (List.mem_append_right _ ht)
    omega
  rw [List.filter_append, List.filter_append,
    List.filter_eq_nil_iff.mpr fun t ht => by simp [hbefore t ht],
    List.filter_eq_self.mpr fun t ht => decide_eq_true (hin t ht),
    List.filter_eq_nil_iff.mpr fun t ht => by simp [hbehind t ht]]
  simp

namespace Grammar

variable {c c' : Context} {s s' : State} {n : Node}

/-! ## Regions of definitions -/

/-- A parser of definitions, which go from the first token taken to the last one. -/
def Covers (p : Parse Node) : Prop :=
  ∀ c s n s', p c s = .ok n s' → n.rule ∈ Rule.definitions ∧ n.span = (s.place c).upTo s'.last

namespace Covers

theorem node {r : Rule} (hr : r ∈ Rule.definitions) (parts : Parse (List Element)) :
    Covers (Grammar.node r parts) := by
  intro c s n s' h
  rw [run_node] at h
  split at h <;> cases h
  exact ⟨hr, rfl⟩

theorem alternative {w : String} {p q : Parse Node} (hp : Covers p) (hq : Covers q) :
    Covers (do if ← atKeyword w then p else q) := by
  intro c s n s' h
  have hat : atKeyword w = looking fun r => r[0]?.any (·.isKeyword w) := rfl
  simp only [hat, run_bind, run_looking] at h
  split at h
  · exact hp c s n s' h
  · exact hq c s n s' h

theorem definitionWithin (levels : Nat) : Covers (Grammar.definitionWithin levels) := by
  have hnone : Covers (Grammar.unexpected definitionStarters) := by
    intro c s n s' h
    rw [run_unexpected] at h
    cases h
  exact alternative (node (by decide) _) (alternative (node (by decide) _)
    (alternative (node (by decide) _) (alternative (node (by decide) _)
      (alternative (node (by decide) _) (alternative (node (by decide) _)
        (alternative (node (by decide) _) hnone))))))

theorem definition : Covers Grammar.definition := by
  intro c s n s' h
  rw [definition_eq] at h
  exact definitionWithin c.settings.maxNesting c s n s' h

end Covers

/-- The tokens of a definition are those in its region. -/
theorem tokensIn_of_definition {before x behind : List Token}
    (horder : InOrder (before ++ (x ++ behind))) (h : definition c s = .ok n s')
    (hs : s.rest = x ++ behind) (hs' : s'.rest = behind) :
    n.tokensIn (before ++ (x ++ behind)) = x := by
  have hadv := definition_composed.advances
  have hlt := hadv.shorter h rfl
  cases x with
  | nil => simp [hs, hs'] at hlt
  | cons t ts =>
      have hspan := (Covers.definition c s n s' h).2
      rw [hadv.upTo h (hs' ▸ hs)] at hspan
      have hle := horder.right.left.le_last (u := t) (by simp) (by simp)
      have hlt := horder.right.lt t (by simp)
      apply horder.filter_region (by simp)
      · rw [hspan]
        rfl
      · rw [hspan]
        simp only [Span.upTo]
        omega

/-! ## Definitions that are left -/

theorem nextDefinition_clean {ns : List Node} (h : nextDefinition c s = .ok (some ns) s')
    (hn : n ∈ ns) : ns = [n] ∧ Clean definition c s n s' := by
  cases nextDerivation_iff.mpr h with
  | keeps hdef hsame =>
      obtain rfl := List.mem_singleton.mp hn
      have hfaults := (definition_composed.advances.ok hdef).faults
      exact ⟨rfl, hdef, (hfaults.eq_of_length hsame.symm).symm⟩
  | drops hdef hdiffers => simp at hn
  | resumes hr hdef hlt => simp at hn

theorem nextDefinition_of_clean (h : Clean definition c s n s') :
    nextDefinition c s = .ok (some [n]) s' :=
  (NextDerivation.keeps h.run (congrArg List.length h.faults)).execution

/-- Every definition that is found was read without a fault, from a state of which everything holds
that reading definitions keeps. -/
theorem definitions_clean {P : State → Prop} {nss : List (List Node)}
    (hstep : ∀ {s ns s'}, P s → nextDefinition c s = .ok (some ns) s' → P s') (hs : P s)
    (h : many nextDefinition c s = .ok nss s') (hn : n ∈ nss.flatten) :
    ∃ s₁ s₂, P s₁ ∧ Clean definition c s₁ n s₂ ∧ s₁.faults <+: s'.faults := by
  induction nss generalizing s with
  | nil => simp at hn
  | cons ns nss ih =>
      rcases many_cases nextDefinition_productive h with ⟨heq, -⟩ | ⟨ns, nss, s₁, heq, hnext, hmany⟩
      · cases heq
      cases heq
      rcases List.mem_append.mp (List.flatten_cons ▸ hn) with hn | hn
      · exact ⟨s, s₁, hs, (nextDefinition_clean hnext hn).2,
          (nextDefinition_advances.ok hnext).faults.trans
            (nextDefinition_advances.many.ok hmany).faults⟩
      · exact ih (hstep hs hnext) hmany hn

end Grammar

open Grammar

namespace Tree

theorem significant_of_mem {tokens ts : List Token} (h : ∀ t ∈ ts, t ∈ significant tokens) :
    significant ts = ts :=
  List.filter_eq_self.mpr fun t ht => (List.mem_filter.mp (h t ht)).2

/-- The tokens that a definition without a fault takes give this definition and no fault where they
are read alone. -/
theorem ofTokens_of_clean {c : Context} {x : Settings} {tokens : List Token} {n : Node}
    {s s' : State} (hlevels : x.maxNesting = c.settings.maxNesting) (h : Clean definition c s n s')
    (hs : s.rest = significant tokens ++ s'.rest) :
    (ofTokens x tokens).faults = [] ∧ (ofTokens x tokens).tree.root.children = [.node n] := by
  have hwhole : Whole c ⟨x, endOf tokens⟩ s'.rest [] definition := .definition hlevels
  obtain ⟨t, hclean, ht⟩ := hwhole.same (t := { rest := significant tokens }) h hs rfl (by simp)
  have hend : nextDefinition ⟨x, endOf tokens⟩ t = .ok none t :=
    (NextDerivation.ends ht).execution
  have hmany : many nextDefinition ⟨x, endOf tokens⟩ { rest := significant tokens } =
      .ok [[n]] t := by
    simp only [run_many_step nextDefinition_productive, nextDefinition_of_clean hclean, hend]
  obtain ⟨hchildren, hfaults⟩ := ofTokens_of_definitions hmany (.inl (by simp))
  rw [hchildren, hfaults, hclean.faults]
  exact ⟨rfl, rfl⟩

/-- Read alone, the tokens in the region of a definition that is left in the tree give that definition
and no fault, even where reading stops at the first one. -/
theorem ofTokens_tokensIn {source : List Char} {tokens : List Token} (settings : Settings)
    (h : Lexer.tokens source = .ok tokens) :
    ∀ child ∈ (ofTokens settings tokens).tree.root.children, ∃ n, child = .node n ∧
      n.rule ∈ Rule.definitions ∧
      (ofTokens { settings with recovery := .abort } (n.tokensIn (significant tokens))).faults = [] ∧
      (ofTokens { settings with recovery := .abort }
        (n.tokensIn (significant tokens))).tree.root.children = [.node n] := by
  intro child hchild
  obtain ⟨nss, s, hmany⟩ := definitions_ok ⟨settings, endOf tokens⟩ { rest := significant tokens }
  rw [children_of_definitions hmany, List.mem_map] at hchild
  obtain ⟨n, hn, rfl⟩ := hchild
  obtain ⟨s₁, s₂, hbehind, hclean, -⟩ := definitions_clean
    (P := State.Behind { rest := significant tokens })
    (fun hb hnext => hb.trans (nextDefinition_advances.ok hnext)) .refl hmany hn
  obtain ⟨before, hrest⟩ := hbehind.rest
  obtain ⟨x, hx, -, -⟩ := (definition_composed.advances.ok hclean.run).taken
  have hall : significant tokens = before ++ (x ++ s₂.rest) := by rw [← hx, hrest]
  have horder : InOrder (before ++ (x ++ s₂.rest)) := by
    rw [← hall]
    exact (Lexer.tokens_inOrder h).sublist List.filter_sublist
  have hslice : n.tokensIn (significant tokens) = x := by
    rw [hall]
    exact tokensIn_of_definition horder hclean.run hx rfl
  have hmem : ∀ t ∈ x, t ∈ significant tokens := fun t ht => by simp [hall, ht]
  refine ⟨n, rfl, (Covers.definition _ _ _ _ hclean.run).1, ?_⟩
  rw [hslice]
  exact ofTokens_of_clean rfl hclean (by rw [significant_of_mem hmem, hx])

/-- One definition between two that are broken. -/
def wholeRoom : String :=
  "item \x7b \x7d room a \x7b name \"A\" \x7d npc b \x7b name 1 \x7d"

theorem ofTokens_tokensIn_wholeRoom :
    Lexer.tokens wholeRoom.toList = .ok (Lexer.tokensOf wholeRoom) ∧
      (ofTokens {} (Lexer.tokensOf wholeRoom)).faults.length = 2 ∧
      ∃ n, (ofTokens {} (Lexer.tokensOf wholeRoom)).tree.root.children = [.node n] ∧
        n.rule ∈ Rule.definitions ∧
        (ofTokens .strict (n.tokensIn (significant (Lexer.tokensOf wholeRoom)))).faults = [] ∧
        (ofTokens .strict
          (n.tokensIn (significant (Lexer.tokensOf wholeRoom)))).tree.root.children = [.node n] := by
  have htokens : Lexer.tokens wholeRoom.toList = .ok (Lexer.tokensOf wholeRoom) := by
    decide +kernel
  have hone : (ofTokens {} (Lexer.tokensOf wholeRoom)).tree.root.children.length = 1 := by
    decide +kernel
  obtain ⟨child, hchild⟩ := List.length_eq_one_iff.mp hone
  have hmem : child ∈ (ofTokens {} (Lexer.tokensOf wholeRoom)).tree.root.children := by
    rw [hchild]
    exact List.mem_singleton_self child
  obtain ⟨n, hn, hrule, hclean⟩ := ofTokens_tokensIn {} htokens child hmem
  refine ⟨htokens, by decide +kernel, n, by rw [hchild, hn], hrule, ?_⟩
  -- The settings are told equal before the tree is looked at.
  generalize hx : ({ ({} : Settings) with recovery := .abort } : Settings) = x at hclean
  obtain rfl : .strict = x := hx
  exact hclean

end Tree

end Storyworld
