import Storyworld.Proofs.Document.SelfContained

namespace Storyworld

/-! Recovery makes up no definitions. Where a definition is broken, reading goes on behind its first
fault, so that only a word there that begins a definition can make something of what is left of it. -/

namespace Grammar

variable {c c' : Context} {b : List Token} {s s' t : State} {n : Node} {depth : Nat}

/-! ## Groups of braces -/

/-- Whether tokens are one pair of braces and what is inside. -/
def IsGroup : List Token → Prop
  | [] => False
  | u :: us => u.isMark .openBrace ∧ us.getLast?.any (·.isMark .closeBrace) ∧ Balanced 0 us.dropLast

instance : DecidablePred IsGroup
  | [] => inferInstanceAs (Decidable False)
  | u :: us => inferInstanceAs (Decidable (u.isMark .openBrace ∧
      us.getLast?.any (·.isMark .closeBrace) ∧ Balanced 0 us.dropLast))

namespace Balanced

theorem flat_append {ts us : List Token} (h : ∀ t ∈ ts, t.isBrace = false)
    (hus : Balanced depth us) : Balanced depth (ts ++ us) := by
  induction ts with
  | nil => exact hus
  | cons t ts ih =>
      have ht := h t (by simp)
      refine ⟨fun hclose => by simp [Token.isBrace, hclose] at ht, ?_⟩
      rw [depthAfter_of_not_brace ht]
      exact ih fun u hu => h u (by simp [hu])

/-- One level further up, one brace more is open behind each beginning. -/
theorem foldl_depthAfter_succ {ts us : List Token} (h : Balanced depth (ts ++ us)) :
    ts.foldl depthAfter (depth + 1) = ts.foldl depthAfter depth + 1 := by
  induction ts generalizing depth with
  | nil => rfl
  | cons t ts ih =>
      have hsucc : depthAfter (depth + 1) t = depthAfter depth t + 1 := by
        by_cases hclose : t.isMark .closeBrace
        · have hpos := h.1 hclose
          rw [depthAfter_close hclose, depthAfter_close hclose]
          omega
        · unfold depthAfter
          split <;> simp_all [Token.isMark]
      rw [List.foldl_cons, List.foldl_cons, hsucc]
      exact ih h.2

theorem concat_close {ts : List Token} {u : Token} (h : Balanced depth ts)
    (hu : u.isMark .closeBrace) : Balanced (depth + 1) (ts ++ [u]) := by
  induction ts generalizing depth with
  | nil =>
      obtain rfl : depth = 0 := h
      exact ⟨fun _ => Nat.zero_lt_one, depthAfter_close hu⟩
  | cons t ts ih =>
      have hsucc : depthAfter (depth + 1) t = depthAfter depth t + 1 :=
        foldl_depthAfter_succ (show Balanced depth ([t] ++ ts) from h)
      refine ⟨fun _ => Nat.succ_pos _, ?_⟩
      rw [hsucc]
      exact ih h.2

end Balanced

namespace IsGroup

variable {group header : List Token}

theorem exists_eq (h : IsGroup group) : ∃ u us v, group = u :: (us ++ [v]) ∧
    u.isMark .openBrace ∧ v.isMark .closeBrace ∧ Balanced 0 us := by
  match group, h with
  | u :: us, ⟨hu, hlast, hbalanced⟩ =>
      cases hv : us.getLast? with
      | none => simp [hv] at hlast
      | some v =>
          refine ⟨u, us.dropLast, v, ?_, hu, by simpa [hv] using hlast, hbalanced⟩
          rw [List.dropLast_append_getLast? v hv]

theorem segment (h : IsGroup group) (hheader : ∀ t ∈ header, t.isBrace = false) :
    Segment 0 (header ++ group) := by
  obtain ⟨u, us, v, rfl, hu, hv, hbalanced⟩ := h.exists_eq
  constructor
  · apply Balanced.flat_append hheader
    refine ⟨fun hclose => ?_, ?_⟩
    · simp [Token.isMark_iff.mp hu, Token.isMark] at hclose
    · rw [depthAfter_open hu]
      exact hbalanced.concat_close hv
  · rw [show header ++ u :: (us ++ [v]) = (header ++ u :: us) ++ [v] by simp, List.getLast?_concat]
    exact hv

/-- Where all braces are closed again before the group is over, it has not begun. -/
theorem prefix_header (h : IsGroup group) (hheader : ∀ t ∈ header, t.isBrace = false)
    {taken rest : List Token} (hsplit : header ++ group = taken ++ rest) (hne : rest ≠ [])
    (hdepth : taken.foldl depthAfter 0 = 0) : taken <+: header := by
  rcases List.append_eq_append_iff.mp hsplit with ⟨ys, rfl, hgroup⟩ | ⟨xs, rfl, -⟩
  · obtain ⟨u, us, v, rfl, hu, -, hbalanced⟩ := h.exists_eq
    cases ys with
    | nil => simp
    | cons w ys =>
        rw [List.cons_append, List.cons.injEq] at hgroup
        obtain ⟨rfl, hrest⟩ := hgroup
        rw [List.foldl_append, foldl_depthAfter_flat hheader, List.foldl_cons,
          depthAfter_open hu] at hdepth
        have hinside : ys <+: us := by
          have hlength := congrArg List.length hrest
          have hpos := List.length_pos_iff.mpr hne
          simp only [List.length_append, List.length_cons, List.length_nil] at hlength
          have hys : ys <+: us ++ [v] := ⟨rest, hrest.symm⟩
          exact List.prefix_of_prefix_length_le hys (List.prefix_append us [v]) (by omega)
        obtain ⟨zs, rfl⟩ := hinside
        rw [hbalanced.foldl_depthAfter_succ] at hdepth
        omega
  · exact List.prefix_append taken xs

end IsGroup

/-! ## Where definitions begin -/

/-- A parser of definitions, which begin with a word for it. -/
def Headed (p : Parse Node) : Prop :=
  ∀ c s n s', p c s = .ok n s' → s.rest.head?.any (·.isOneOf definitionStarters)

theorem Headed.alternative {w : String} {p q : Parse Node} (hw : w ∈ definitionStarters)
    (hq : Headed q) : Headed (do if ← atKeyword w then p else q) := by
  intro c s n s' h
  have hat : atKeyword w = looking fun r => r[0]?.any (·.isKeyword w) := rfl
  simp only [hat, run_bind, run_looking] at h
  split at h
  · rename_i hkeyword
    rw [← List.head?_eq_getElem?] at hkeyword
    cases hr : s.rest.head? with
    | none => simp [hr] at hkeyword
    | some t =>
        have ht : t.isKeyword w := by simpa [hr] using hkeyword
        exact Token.isOneOf_iff.mpr ⟨w, hw, Token.isKeyword_iff.mp ht⟩
  · exact hq c s n s' h

theorem Headed.definition : Headed Grammar.definition := by
  intro c s n s' h
  rw [definition_eq] at h
  have hnone : Headed (Grammar.unexpected definitionStarters) := by
    intro c s n s' h
    rw [run_unexpected] at h
    cases h
  have hwithin (levels : Nat) : Headed (Grammar.definitionWithin levels) :=
    .alternative (by decide) (.alternative (by decide) (.alternative (by decide)
      (.alternative (by decide) (.alternative (by decide) (.alternative (by decide)
        (.alternative (by decide) hnone))))))
  exact hwithin c.settings.maxNesting c s n s' h

/-! ## Behind a fault -/

/-- Every fault found lies in front of the tokens left, which are in order. -/
structure State.Trailing (s : State) : Prop where
  order : InOrder s.rest
  faults : ∀ f ∈ s.faults, ∀ t ∈ s.rest, f.span.start ≤ t.span.start

theorem State.Trailing.lasting : Lasting State.Trailing c where
  advance hs := by
    constructor
    · rw [advance_rest]
      exact hs.order.sublist (List.tail_sublist _)
    · intro f hf t ht
      rw [advance_rest] at ht
      exact hs.faults f (by simpa using hf) t (List.mem_of_mem_tail ht)
  log _ hs := ⟨hs.order, hs.faults⟩
  fault {s} cause hs := by
    refine ⟨hs.order, fun f hf t ht => ?_⟩
    rcases List.mem_append.mp hf with hf | hf
    · exact hs.faults f hf t ht
    · rw [List.mem_singleton.mp hf]
      have ht : t ∈ s.rest := ht
      cases hr : s.rest with
      | nil => simp [hr] at ht
      | cons u rest =>
          have horder := hs.order
          rw [hr] at ht horder
          simpa [State.place, hr] using horder.head_le ht

theorem nextDefinition_segment {ns : List Node} (hs : Segment s.depth s.rest) (hd : s.depth = 0)
    (h : nextDefinition c s = .ok (some ns) s') : Segment s'.depth s'.rest ∧ s'.depth = 0 := by
  have hne : s.rest ≠ [] := by
    rintro hnil
    rw [(NextDerivation.ends hnil).execution] at h
    cases h
  exact (nextDefinition_before (b := []) rfl rfl ⟨hs, hne⟩ hd h).2 rfl

/-- A state in which a segment goes on outside all braces and behind the faults. -/
structure State.Outside (s : State) : Prop where
  segment : Segment s.depth s.rest
  depth : s.depth = 0
  trailing : s.Trailing

theorem nextDefinition_outside {ns : List Node} (hs : s.Outside)
    (h : nextDefinition c s = .ok (some ns) s') : s'.Outside := by
  obtain ⟨hseg, hdepth⟩ := nextDefinition_segment hs.segment hs.depth h
  exact ⟨hseg, hdepth, (nextDefinition_keeps State.Trailing.lasting).ok hs.trailing h⟩

/-- Outside the braces of a definition that has begun, a word for a definition stands in the tail of
its header. -/
theorem IsGroup.mem_tail {header group taken rest : List Token} (h : IsGroup group)
    (hheader : ∀ t ∈ header, t.isBrace = false) {t : Token}
    (hsplit : header ++ group = taken ++ t :: rest) (hne : taken ≠ [])
    (hdepth : taken.foldl depthAfter 0 = 0) (ht : t.isOneOf definitionStarters) :
    t ∈ header.tail := by
  obtain ⟨header', rfl⟩ := h.prefix_header hheader hsplit (by simp) hdepth
  rw [List.append_assoc, List.append_cancel_left_eq] at hsplit
  rw [List.tail_append_of_ne_nil hne]
  cases header' with
  | nil =>
      obtain ⟨v, us, w, rfl, hv, -, -⟩ := h.exists_eq
      obtain ⟨rfl, -⟩ := List.cons.inj hsplit
      simp [Token.isOneOf_of_isMark hv] at ht
  | cons v header' =>
      obtain ⟨rfl, -⟩ := List.cons.inj hsplit
      simp

/-- What is found in a broken definition begins in its header, at or behind the first fault. -/
theorem begins_of_broken {header group : List Token} {nss : List (List Node)}
    (hs : s.rest = header ++ group) (hheader : ∀ t ∈ header, t.isBrace = false)
    (hgroup : IsGroup group) (hd : s.depth = 0) (htrailing : s.Trailing)
    (hbroken : ∀ n s', ¬Clean definition c s n s') (h : many nextDefinition c s = .ok nss s')
    (hn : n ∈ nss.flatten) :
    ∃ t ∈ header.tail, t.isOneOf definitionStarters ∧
      ∃ f ∈ s'.faults.head?, f.span.start ≤ t.span.start := by
  have hseg : Segment s.depth s.rest := by
    rw [hd, hs]
    exact hgroup.segment hheader
  have hne : s.rest ≠ [] := by
    rw [hs]
    rintro hnil
    simp [(List.append_eq_nil_iff.mp hnil).2, IsGroup] at hgroup
  rcases many_cases nextDefinition_productive h with ⟨rfl, -⟩ | ⟨ns, nss, s₁, rfl, hnext, hmany⟩
  · simp at hn
  -- The first round finds nothing and leaves a fault.
  obtain rfl : ns = [] := by
    rw [List.eq_nil_iff_forall_not_mem]
    exact fun m hm => hbroken m s₁ (nextDefinition_clean hnext hm).2
  have hfaults : s₁.faults ≠ [] := by
    rcases nextDefinition_or_fault hne hnext with ⟨m, hm⟩ | hne
    · cases hm
    · exact hne
  have hstart : s₁.Behind s₁ ∧ s₁.Outside :=
    ⟨.refl, nextDefinition_outside ⟨hseg, hd, htrailing⟩ hnext⟩
  obtain ⟨u, u', ⟨hbehind, houtside⟩, hclean, hprefix⟩ := definitions_clean
    (P := fun u => s₁.Behind u ∧ u.Outside)
    (fun hu h => ⟨hu.1.trans (nextDefinition_advances.ok h), nextDefinition_outside hu.2 h⟩)
    hstart hmany (by simpa using hn)
  have hbegins := Headed.definition c u n u' hclean.run
  cases hr : u.rest with
  | nil => simp [hr] at hbegins
  | cons t rest =>
      obtain ⟨taken, htaken, -, hopen⟩ := ((nextDefinition_advances.ok hnext).trans hbehind).taken
      rw [houtside.depth, hd] at hopen
      have hsome : taken ≠ [] := by
        rintro rfl
        have hlt := nextDefinition_productive c s [] s₁ hnext
        have hle := hbehind.rest.length_le
        rw [htaken] at hlt
        simp only [List.nil_append] at hlt
        omega
      have ht : t.isOneOf definitionStarters := by simpa [hr] using hbegins
      have hsplit : header ++ group = taken ++ t :: rest := by rw [← hs, htaken, hr]
      refine ⟨t, hgroup.mem_tail hheader hsplit hsome hopen.symm ht, ht, ?_⟩
      -- The first fault was known before this definition began.
      obtain ⟨f, fs, hf⟩ := List.exists_cons_of_ne_nil hfaults
      have hmore := hbehind.faults
      have hmore' := hmore.trans hprefix
      rw [hf] at hmore hmore'
      obtain ⟨gs, hgs⟩ := hmore'
      have hle := houtside.trailing.faults f (hmore.subset (by simp)) t (by simp [hr])
      exact ⟨f, by simp [← hgs], hle⟩

/-! ## Definitions without a fault -/

theorem nextDefinition_of_faults_nil {ns? : Option (List Node)} (hs : s.rest ≠ [])
    (h : nextDefinition c s = .ok ns? s') (hs' : s'.faults = []) :
    ∃ n, ns? = some [n] ∧ Clean definition c s n s' := by
  rcases nextDefinition_or_fault hs h with ⟨n, rfl⟩ | hfault
  · exact ⟨n, rfl, (nextDefinition_clean h (List.mem_singleton_self n)).2⟩
  · exact absurd hs' hfault

/-- Tokens that give definitions and no fault begin with a word for a definition. -/
theorem begins_of_faults_nil {nss : List (List Node)} (h : many nextDefinition c s = .ok nss s')
    (hs' : s'.faults = []) : s.rest.head?.all (·.isOneOf definitionStarters) := by
  by_cases hne : s.rest = []
  · simp [hne]
  have hclean : ∃ n s₁, Clean definition c s n s₁ := by
    rcases many_cases nextDefinition_productive h with ⟨-, hnext⟩ | ⟨ns, nss, s₁, -, hnext, hmany⟩
    · obtain ⟨n, -, hclean⟩ := nextDefinition_of_faults_nil hne hnext hs'
      exact ⟨n, s', hclean⟩
    · have hs₁ := List.prefix_nil.mp (hs' ▸ (nextDefinition_advances.many.ok hmany).faults)
      obtain ⟨n, -, hclean⟩ := nextDefinition_of_faults_nil hne hnext hs₁
      exact ⟨n, s₁, hclean⟩
  obtain ⟨n, s₁, hclean⟩ := hclean
  have hbegins := Headed.definition c s n s₁ hclean.run
  cases hr : s.rest with
  | nil => exact absurd hr hne
  | cons t rest => simpa [hr] using hbegins

/-- Tokens that give definitions and no fault are read the same way behind anything and in front of
anything. -/
theorem definitions_followed (hc : c'.settings.maxNesting = c.settings.maxNesting)
    {nss : List (List Node)} (h : many nextDefinition c s = .ok nss s') (hs' : s'.faults = [])
    (ht : t.rest = s.rest ++ b) :
    ∃ t', t'.rest = b ∧ t'.faults = t.faults ∧ t'.depth = t.depth ∧ ∀ {nss' u},
      many nextDefinition c' t' = .ok nss' u → many nextDefinition c' t = .ok (nss ++ nss') u := by
  induction nss generalizing s t with
  | nil =>
      rcases many_cases nextDefinition_productive h with ⟨-, hnext⟩ | ⟨_, _, _, heq, -⟩
      · have hnil : s.rest = [] := by
          by_contra hne
          obtain ⟨n, hn, -⟩ := nextDefinition_of_faults_nil hne hnext hs'
          cases hn
        exact ⟨t, by rw [ht, hnil, List.nil_append], rfl, rfl, id⟩
      · cases heq
  | cons ns nss ih =>
      rcases many_cases nextDefinition_productive h with ⟨heq, -⟩ | ⟨ns, nss, s₁, heq, hnext, hmany⟩
      · cases heq
      cases heq
      have hs₁ : s₁.faults = [] :=
        List.prefix_nil.mp (hs' ▸ (nextDefinition_advances.many.ok hmany).faults)
      have hne : s.rest ≠ [] := by
        rintro hnil
        rw [(NextDerivation.ends hnil).execution] at hnext
        cases hnext
      obtain ⟨n, hn, hclean⟩ := nextDefinition_of_faults_nil hne hnext hs₁
      cases hn
      obtain ⟨x, hx, -, -⟩ := (definition_composed.advances.ok hclean.run).taken
      have hwhole : Whole c c' s₁.rest (s₁.rest ++ b) definition := .definition hc
      obtain ⟨t₁, hclean', ht₁⟩ :=
        hwhole.same hclean hx rfl (by rw [ht, hx, List.append_assoc])
      obtain ⟨t', hrest, hfaults, hdepth, hmore⟩ := ih hmany ht₁
      have hlevel := definition_composed.level.depth hclean'
      refine ⟨t', hrest, hfaults.trans hclean'.faults, hdepth.trans hlevel, fun h' => ?_⟩
      rw [run_many_step nextDefinition_productive, nextDefinition_of_clean hclean']
      simp only [hmore h']
      rfl

end Grammar

open Grammar

namespace Tree

variable {x : Settings} {tokens : List Token}

/-- The tokens of a definition in front of its braces. -/
def header (tokens : List Token) : List Token :=
  (significant tokens).takeWhile fun t => !t.isBrace

/-- The tokens of a definition from its first brace on. -/
def braces (tokens : List Token) : List Token :=
  (significant tokens).dropWhile fun t => !t.isBrace

/-- A definition that is broken: it ends with the only braces that lie in no others, it is read with
a fault, and so is every beginning of its header. -/
structure Broken (x : Settings) (tokens : List Token) : Prop where
  order : InOrder (significant tokens)
  group : IsGroup (braces tokens)
  faults : (ofTokens x tokens).faults ≠ []
  begun : ∀ k < (header tokens).length, (ofTokens x ((header tokens).take (k + 1))).faults ≠ []

theorem header_append_braces (tokens : List Token) :
    header tokens ++ braces tokens = significant tokens :=
  List.takeWhile_append_dropWhile

theorem isBrace_of_mem_header {t : Token} (h : t ∈ header tokens) : t.isBrace = false := by
  simpa using List.mem_takeWhile_imp h

/-- A broken definition does not begin with one that has no fault. -/
theorem Broken.not_clean (hb : Broken x tokens) {c : Context} {s s' : State} {n : Node}
    (hlevels : x.maxNesting = c.settings.maxNesting) (hs : s.rest = significant tokens)
    (hd : s.depth = 0) : ¬Clean definition c s n s' := by
  intro h
  obtain ⟨taken, hrest, -, hdepth⟩ := (definition_composed.advances.ok h.run).taken
  have hlt := definition_composed.advances.shorter h.run rfl
  by_cases hend : s'.rest = []
  · exact hb.faults (ofTokens_of_clean hlevels h (by rw [hs, hend, List.append_nil])).1
  · rw [definition_composed.level.depth h, hd] at hdepth
    have hsplit : header tokens ++ braces tokens = taken ++ s'.rest := by
      rw [header_append_braces, ← hs, hrest]
    have hprefix :=
      hb.group.prefix_header (fun _ => isBrace_of_mem_header) hsplit hend hdepth.symm
    have hmem : ∀ t ∈ taken, t ∈ significant tokens := by
      intro t ht
      rw [← hs, hrest]
      exact List.mem_append_left _ ht
    have hpos : 0 < taken.length := by
      rw [hrest, List.length_append] at hlt
      omega
    have htake : (header tokens).take (taken.length - 1 + 1) = taken := by
      rw [Nat.sub_add_cancel hpos]
      exact (List.prefix_iff_eq_take.mp hprefix).symm
    have hle := hprefix.length_le
    refine hb.begun (taken.length - 1) (by omega) ?_
    rw [htake]
    exact (ofTokens_of_clean hlevels h (by rw [significant_of_mem hmem, hrest])).1

/-- What tokens give that are read without a fault, behind anything and in front of anything. -/
theorem followed_of_faults_nil {c : Context} (hlevels : c.settings.maxNesting = x.maxNesting)
    (htokens : significant tokens = [] ∨ (ofTokens x tokens).faults = []) {t : State}
    {b : List Token} (ht : t.rest = significant tokens ++ b) :
    (significant tokens).head?.all (·.isOneOf definitionStarters) ∧
      ∃ nss t', (ofTokens x tokens).tree.root.children = nss.flatten.map .node ∧
        t'.rest = b ∧ t'.faults = t.faults ∧ t'.depth = t.depth ∧ ∀ {nss' u},
          many nextDefinition c t' = .ok nss' u → many nextDefinition c t = .ok (nss ++ nss') u := by
  obtain ⟨nss, s, h⟩ := definitions_ok ⟨x, endOf tokens⟩ { rest := significant tokens }
  have hs : s.faults = [] := by
    rcases htokens with hnil | hfaults
    · rw [run_many_step nextDefinition_productive, (NextDerivation.ends hnil).execution] at h
      cases h
      rfl
    · exact List.prefix_nil.mp (hfaults ▸ faults_of_definitions h)
  obtain ⟨t', hrest, hfaults, hdepth, hmore⟩ := definitions_followed hlevels h hs ht
  exact ⟨begins_of_faults_nil h hs, nss, t', children_of_definitions h, hrest, hfaults, hdepth, hmore⟩

/-- Nothing comes of a broken definition where every word in its header that could begin a definition
lies in front of its first fault. -/
theorem Broken.definitions (hb : Broken x tokens)
    (hwords : ∀ t ∈ (header tokens).tail, t.isOneOf definitionStarters →
      ∀ f ∈ (ofTokens x tokens).faults.head?, t.span.start < f.span.start)
    {s s' : State} (hrest : s.rest = significant tokens) (hfaults : s.faults = [])
    (hdepth : s.depth = 0) {nss : List (List Node)}
    (h : many nextDefinition ⟨x, endOf tokens⟩ s = .ok nss s')
    (hn : s'.faults.length < x.faultBudget) : nss.flatten = [] := by
  -- The same faults are found from here as from the beginning of a source.
  have hfollows : s.Follows [] { rest := significant tokens } :=
    ⟨hrest.symm, hdepth.symm, hfaults.symm⟩
  obtain ⟨u, halone, hsame, -⟩ := (nextDefinition_shifts.many nextDefinition_advances).ok hfollows h
    (by simpa using hn)
  obtain ⟨fs, hfs⟩ := faults_of_definitions halone
  rw [hsame.faults, List.nil_append] at hfs
  rw [List.eq_nil_iff_forall_not_mem]
  intro n hmem
  have htrailing : s.Trailing := ⟨hrest ▸ hb.order, by simp [hfaults]⟩
  have hsplit : s.rest = header tokens ++ braces tokens := by rw [hrest, header_append_braces]
  obtain ⟨t, ht, hstarter, f, hf, hle⟩ := begins_of_broken hsplit (fun _ => isBrace_of_mem_header)
    hb.group hdepth htrailing (fun _ _ => hb.not_clean rfl hrest hdepth) h hmem
  have hfirst : f ∈ (ofTokens x tokens).faults.head? := by
    rw [← hfs, List.head?_append, hf]
    rfl
  have hlt := hwords t ht hstarter f hfirst
  omega

/-- Nothing comes of a broken definition between others that have no faults, where every word in its
header that could begin a definition lies in front of its first fault. -/
theorem ofTokens_broken {before broken behind : List Token} (hr : x.recovery = .resync)
    (hbefore : significant before = [] ∨ (ofTokens x before).faults = [])
    (hbehind : significant behind = [] ∨ (ofTokens x behind).faults = [])
    (hbroken : Broken x broken)
    (hwords : ∀ t ∈ (header broken).tail, t.isOneOf definitionStarters →
      ∀ f ∈ (ofTokens x broken).faults.head?, t.span.start < f.span.start)
    (hn : (ofTokens x (before ++ broken ++ behind)).faults.length < x.maxErrors) :
    (ofTokens x (before ++ broken ++ behind)).tree.root.children =
      (ofTokens x before).tree.root.children ++ (ofTokens x behind).tree.root.children := by
  have hresync : x.resyncs := by simp [Settings.resyncs, hr]
  have hbudget : x.maxErrors ≤ x.faultBudget := Nat.le_max_left _ _
  let c : Context := ⟨x, endOf (before ++ broken ++ behind)⟩
  -- The definitions in front come first.
  obtain ⟨-, nss, t, hchildren, ht, hfaults, hdepth, hfirst⟩ := followed_of_faults_nil (c := c)
    (b := significant broken ++ significant behind) rfl hbefore
    (t := { rest := significant (before ++ broken ++ behind) }) (by simp [significant])
  -- The broken one is read up to its last brace, and those behind it as they are alone.
  let s : State := { t with rest := significant broken }
  have hs : s.before (significant behind) = t := by simp [s, State.before, ← ht]
  obtain ⟨none, u, hnone⟩ := definitions_ok ⟨x, endOf broken⟩ s
  obtain ⟨hb, nss', t', hchildren', ht', hfaults', -, hlast⟩ := followed_of_faults_nil (c := c)
    (b := []) rfl hbehind (t := { u with rest := significant behind }) (by simp)
  have hseg : Segment s.depth s.rest := by
    simp only [s, hdepth, ← header_append_braces broken]
    exact hbroken.group.segment fun _ => isBrace_of_mem_header
  have hsettings : c.settings = (⟨x, endOf broken⟩ : Context).settings := rfl
  have hbetween := definitions_before hsettings hb hseg hdepth hresync hnone
  rw [hs] at hbetween
  rcases hbetween with ⟨hspent, hmany⟩ | ⟨hrest, -, hmany⟩
  · have hle := (faults_of_definitions (hfirst hmany)).length_le
    have hspent : x.faultBudget ≤ u.faults.length := hspent
    simp only [State.before] at hle
    omega
  have hend : many nextDefinition c t' = .ok [] t' := by
    rw [run_many_step nextDefinition_productive, (NextDerivation.ends ht').execution]
  have hu : u.before (significant behind) = { u with rest := significant behind } := by
    simp [State.before, hrest]
  have hall := hfirst (hmany (hu ▸ hlast hend))
  have hnothing : none.flatten = [] := by
    have hle := (faults_of_definitions hall).length_le
    have hsame : t'.faults.length = u.faults.length := congrArg List.length hfaults'
    exact hbroken.definitions (s := s) hwords rfl hfaults hdepth hnone (by omega)
  rw [children_of_definitions hall, hchildren, hchildren', List.append_nil, List.flatten_append,
    List.flatten_append, hnothing, List.nil_append, List.map_append]

/-- A trigger whose first fault lies behind the only word that could begin a definition. -/
def flyTrigger : String :=
  "trigger \"t\" when enter room hall \x7b do fly \x7d"

theorem ofTokens_broken_fly :
    (Broken {} (Lexer.tokensOf flyTrigger) ∧
      (ofTokens {} (Lexer.tokensOf "room hall \x7b \x7d")).faults = [] ∧
      (ofTokens {} (Lexer.tokensOf "goal g \x7b name \"G\" \x7d")).faults = []) ∧
    (ofTokens {} (Lexer.tokensOf "room hall \x7b \x7d" ++ Lexer.tokensOf flyTrigger ++
        Lexer.tokensOf "goal g \x7b name \"G\" \x7d")).tree.root.children =
      (ofTokens {} (Lexer.tokensOf "room hall \x7b \x7d")).tree.root.children ++
        (ofTokens {} (Lexer.tokensOf "goal g \x7b name \"G\" \x7d")).tree.root.children := by
  have htokens : Lexer.tokens flyTrigger.toList = .ok (Lexer.tokensOf flyTrigger) := by
    decide +kernel
  have hbroken : Broken {} (Lexer.tokensOf flyTrigger) :=
    ⟨(Lexer.tokens_inOrder htokens).sublist List.filter_sublist, by decide +kernel, by decide +kernel,
      by decide +kernel⟩
  have hroom : (ofTokens {} (Lexer.tokensOf "room hall \x7b \x7d")).faults = [] := by decide +kernel
  have hgoal : (ofTokens {} (Lexer.tokensOf "goal g \x7b name \"G\" \x7d")).faults = [] := by
    decide +kernel
  exact ⟨⟨hbroken, hroom, hgoal⟩, ofTokens_broken rfl (.inr hroom) (.inr hgoal) hbroken
    (by decide +kernel) (by decide +kernel)⟩

/-- A trigger whose first fault is a word that could begin a definition. -/
def itemTrigger : String :=
  "trigger \"t\" when enter item lamp \x7b name \"x\" \x7d"

/-- With nothing in front of it and behind it, the rest of a broken trigger is taken for an item. -/
theorem ofTokens_broken_item :
    Broken {} (Lexer.tokensOf itemTrigger) ∧
      (ofTokens {} ([] ++ Lexer.tokensOf itemTrigger ++ [])).faults.length = 1 ∧
      (ofTokens {} ([] ++ Lexer.tokensOf itemTrigger ++ [])).tree.root.nodes.map (·.rule) =
        [.itemDef] ∧
      (ofTokens {} []).tree.root.children ++ (ofTokens {} []).tree.root.children = [] := by
  have htokens : Lexer.tokens itemTrigger.toList = .ok (Lexer.tokensOf itemTrigger) := by
    decide +kernel
  refine ⟨⟨(Lexer.tokens_inOrder htokens).sublist List.filter_sublist, ?_, ?_, ?_⟩, ?_⟩
  all_goals decide +kernel

end Tree

end Storyworld
