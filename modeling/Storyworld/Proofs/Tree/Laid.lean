import Storyworld.Proofs.Token.Lexer
import Storyworld.Proofs.Tree.Every
import Storyworld.Proofs.Tree.Grown

namespace Storyworld

/-! How a tree lies over tokens. A node covers a stretch of them without gaps, and its parts cover
stretches of their own inside it, one behind the other; the tokens in between hold it together. -/

mutual

/-- A node lies over some tokens, the first and the last of which are its ends. -/
def Node.Over (ts : List Token) : Node → Prop
  | .mk _ s cs =>
    (∃ t u, ts.head? = some t ∧ ts.getLast? = some u ∧ s = t.span.upTo u.span) ∧ OverIn ts cs

/-- Parts lie among some tokens, one behind the other. -/
def OverIn (ts : List Token) : List Element → Prop
  | [] => True
  | c :: cs => ∃ gap own more, ts = gap ++ own ++ more ∧ c.Over own ∧ OverIn more cs

/-- An element lies over some tokens; a token lies over itself. -/
def Element.Over (ts : List Token) : Element → Prop
  | .node n => n.Over ts
  | .token t => ts = [t]

end

variable {ts us : List Token} {cs ds : List Element} {n m : Node} {t : Token}

@[simp] theorem Element.over_node : (Element.node n).Over ts ↔ n.Over ts := by
  rw [Element.Over]

@[simp] theorem Element.over_token : (Element.token t).Over ts ↔ ts = [t] := by
  rw [Element.Over]

theorem Node.over_mk {r : Rule} {s : Span} :
    (Node.mk r s cs).Over ts ↔
      (∃ t u, ts.head? = some t ∧ ts.getLast? = some u ∧ s = t.span.upTo u.span) ∧
        OverIn ts cs := by
  rw [Node.Over]

@[simp] theorem overIn_nil : OverIn ts [] := by
  rw [OverIn]
  trivial

theorem overIn_cons {c : Element} :
    OverIn ts (c :: cs) ↔
      ∃ gap own more, ts = gap ++ own ++ more ∧ c.Over own ∧ OverIn more cs := by
  rw [OverIn]

theorem Element.Over.single {c : Element} (h : c.Over ts) : OverIn ts [c] :=
  overIn_cons.mpr ⟨[], ts, [], by simp, h, overIn_nil⟩

/-! ## Putting parts together -/

theorem OverIn.widen (h : OverIn ts cs) : OverIn (ts ++ us) cs := by
  induction cs generalizing ts with
  | nil => exact overIn_nil
  | cons c cs ih =>
      obtain ⟨gap, own, more, rfl, hown, hmore⟩ := overIn_cons.mp h
      apply overIn_cons.mpr
      exact ⟨gap, own, more ++ us, by simp, hown, ih hmore⟩

theorem OverIn.behind (h : OverIn ts cs) : OverIn (us ++ ts) cs := by
  cases cs with
  | nil => exact overIn_nil
  | cons c cs =>
      obtain ⟨gap, own, more, rfl, hown, hmore⟩ := overIn_cons.mp h
      apply overIn_cons.mpr
      exact ⟨us ++ gap, own, more, by simp, hown, hmore⟩

/-- Parts over some tokens and parts over the tokens behind them are parts over all of them. -/
theorem OverIn.append (h : OverIn ts cs) (h' : OverIn us ds) : OverIn (ts ++ us) (cs ++ ds) := by
  induction cs generalizing ts with
  | nil => exact h'.behind
  | cons c cs ih =>
      obtain ⟨gap, own, more, rfl, hown, hmore⟩ := overIn_cons.mp h
      apply overIn_cons.mpr
      exact ⟨gap, own, more ++ us, by simp, hown, ih hmore⟩

theorem OverIn.of_mem (h : OverIn ts cs) {c : Element} (hc : c ∈ cs) :
    ∃ own, own <:+: ts ∧ c.Over own := by
  induction cs generalizing ts with
  | nil => cases hc
  | cons d cs ih =>
      obtain ⟨gap, own, more, rfl, hown, hmore⟩ := overIn_cons.mp h
      rcases List.mem_cons.mp hc with rfl | hc
      · exact ⟨own, ⟨gap, more, rfl⟩, hown⟩
      · obtain ⟨own', hstretch, hown'⟩ := ih hmore hc
        exact ⟨own', hstretch.trans (List.suffix_append _ _).isInfix, hown'⟩

/-- There is no part where there is no token. -/
theorem OverIn.eq_nil (h : OverIn [] cs) : cs = [] := by
  cases cs with
  | nil => rfl
  | cons c cs =>
      obtain ⟨gap, own, more, heq, hown, -⟩ := overIn_cons.mp h
      obtain ⟨hfirst, -⟩ := List.append_eq_nil_iff.mp heq.symm
      obtain ⟨-, rfl⟩ := List.append_eq_nil_iff.mp hfirst
      cases c with
      | token t => cases Element.over_token.mp hown
      | node n =>
          cases n
          obtain ⟨⟨t, u, hhead, -, -⟩, -⟩ := Node.over_mk.mp (Element.over_node.mp hown)
          cases hhead

/-- What is left of parts that lie among tokens lies among them too. -/
theorem OverIn.sublist (h : OverIn ts cs) (hsub : ds.Sublist cs) : OverIn ts ds := by
  induction hsub generalizing ts with
  | slnil => exact overIn_nil
  | cons c _ ih =>
      obtain ⟨gap, own, more, rfl, -, hmore⟩ := overIn_cons.mp h
      exact (ih hmore).behind
  | cons_cons c _ ih =>
      obtain ⟨gap, own, more, rfl, hown, hmore⟩ := overIn_cons.mp h
      exact overIn_cons.mpr ⟨gap, own, more, rfl, hown, ih hmore⟩

/-! ## Tokens -/

theorem Node.leaves_eq (n : Node) : n.leaves = leavesIn n.children := by
  cases n
  rw [Node.leaves]
  rfl

theorem leavesIn_eq_flatMap (cs : List Element) : leavesIn cs = cs.flatMap Element.leaves := by
  induction cs with
  | nil => rfl
  | cons c cs ih => rw [leavesIn, ih, List.flatMap_cons]

theorem Node.mem_leaves : t ∈ n.leaves ↔ ∃ c ∈ n.children, t ∈ c.leaves := by
  rw [Node.leaves_eq, leavesIn_eq_flatMap, List.mem_flatMap]

mutual

/-- The tokens in a tree are among those it lies over, in their order. -/
theorem Node.Over.leaves_sublist : ∀ {n : Node} {ts : List Token}, n.Over ts → n.leaves.Sublist ts
  | .mk _ _ _, _, h => by
    rw [Node.leaves]
    exact OverIn.leaves_sublist (Node.over_mk.mp h).2

theorem OverIn.leaves_sublist : ∀ {cs : List Element} {ts : List Token}, OverIn ts cs →
    (leavesIn cs).Sublist ts
  | [], _, _ => by simp [leavesIn]
  | c :: cs, ts, h => by
    obtain ⟨gap, own, more, rfl, hown, hmore⟩ := overIn_cons.mp h
    have hfirst := Element.Over.leaves_sublist hown
    have hrest := OverIn.leaves_sublist hmore
    rw [leavesIn]
    exact ((hfirst.trans (List.sublist_append_right gap own)).append hrest)

theorem Element.Over.leaves_sublist : ∀ {c : Element} {ts : List Token}, c.Over ts →
    c.leaves.Sublist ts
  | .node n, _, h => by
    have hn := Node.Over.leaves_sublist (Element.over_node.mp h)
    simpa [Element.leaves] using hn
  | .token t, _, h => by
    simp [Element.leaves, Element.over_token.mp h]

end

/-! ## Places -/

/-- Where a node lies among the tokens of a source: it begins where one of them does and ends where
one does, and its parts lie inside it and one behind the other. -/
structure Node.Placed (ts : List Token) (n : Node) : Prop where
  starts : ∃ t ∈ ts, n.span.start = t.span.start ∧ n.span.line = t.span.line ∧
    n.span.column = t.span.column
  stops : ∃ t ∈ ts, n.span.stop = t.span.stop
  inside : ∀ c ∈ n.children, c.span.Inside n.span
  ordered : n.children.Pairwise fun c d => c.span.stop ≤ d.span.start

theorem Node.Placed.mono (h : n.Placed ts) (hts : ts ⊆ us) : n.Placed us := by
  obtain ⟨t, ht, hstart⟩ := h.starts
  obtain ⟨u, hu, hstop⟩ := h.stops
  exact ⟨⟨t, hts ht, hstart⟩, ⟨u, hts hu, hstop⟩, h.inside, h.ordered⟩

/-- An element that lies over tokens goes from the first one to the last one. -/
theorem Element.Over.ends {c : Element} (h : c.Over ts) (horder : InOrder ts) :
    ∃ t u, ts.head? = some t ∧ ts.getLast? = some u ∧ c.span = t.span.upTo u.span ∧
      c.span.stop = u.span.stop := by
  cases c with
  | token t =>
      have hts := Element.over_token.mp h
      have hlt := horder.lt t (by simp [hts])
      have hmax : max t.span.stop t.span.start = t.span.stop := Nat.max_eq_left hlt.le
      rw [hts]
      refine ⟨t, t, rfl, rfl, ?_, rfl⟩
      rw [Span.upTo, hmax]
      rfl
  | node n =>
      cases n with
      | mk r s cs =>
          obtain ⟨⟨t, u, hhead, hlast, rfl⟩, -⟩ := Node.over_mk.mp (Element.over_node.mp h)
          refine ⟨t, u, hhead, hlast, rfl, ?_⟩
          have hu : u ∈ ts := List.mem_of_getLast? hlast
          obtain ⟨rest, rfl⟩ := List.head?_eq_some_iff.mp hhead
          have hle := horder.head_le hu
          have hlt := horder.lt u hu
          change max u.span.stop t.span.start = u.span.stop
          omega

/-- An element over tokens has these inside it. -/
theorem Element.Over.inside {c : Element} (h : c.Over ts) (horder : InOrder ts) (ht : t ∈ ts) :
    t.span.Inside c.span := by
  obtain ⟨first, last, hhead, hlast, hspan, hstop⟩ := h.ends horder
  have hne : ts ≠ [] := List.ne_nil_of_mem ht
  have hle := horder.le_last hne ht
  rw [List.getLast?_eq_some_getLast hne, Option.some.injEq] at hlast
  obtain ⟨rest, rfl⟩ := List.head?_eq_some_iff.mp hhead
  refine ⟨?_, (horder.lt t ht).le, ?_⟩
  · rw [hspan]
    exact horder.head_le ht
  · rw [hstop, ← hlast]
    exact hle

/-- Where the tokens that an element lies over lie inside a region, it does too, and it is not
empty. -/
theorem Element.Over.span_inside {c : Element} (h : c.Over ts) (horder : InOrder ts) {region : Span}
    (hts : ∀ t ∈ ts, t.span.Inside region) :
    c.span.Inside region ∧ c.span.start < c.span.stop := by
  obtain ⟨t, u, hhead, hlast, hspan, hstop⟩ := h.ends horder
  have hu : u ∈ ts := List.mem_of_getLast? hlast
  obtain ⟨rest, rfl⟩ := List.head?_eq_some_iff.mp hhead
  have hle := horder.head_le hu
  have hlt := horder.lt u hu
  have hfirst := hts t (by simp)
  have hlast := hts u hu
  have hstart : c.span.start = t.span.start := by
    rw [hspan]
    rfl
  rw [← hstart] at hle
  rw [← hstop] at hlt
  exact ⟨⟨hstart ▸ hfirst.start, by omega, hstop ▸ hlast.stop⟩, by omega⟩

/-- A token in front of those that an element lies over is not inside it. -/
theorem Element.Over.not_inside_before {c : Element} (h : c.Over ts) (horder : InOrder (us ++ ts))
    (ht : t ∈ us) : ¬t.span.Inside c.span := by
  intro hin
  obtain ⟨first, last, hhead, -, hspan, -⟩ := h.ends horder.right
  have hbefore := horder.before ht (List.mem_of_mem_head? hhead)
  have hlt := horder.lt t (List.mem_append_left _ ht)
  have hstart := hin.start
  rw [hspan] at hstart
  change first.span.start ≤ t.span.start at hstart
  omega

/-- Nor is a token behind them. -/
theorem Element.Over.not_inside_behind {c : Element} (h : c.Over ts) (horder : InOrder (ts ++ us))
    (ht : t ∈ us) : ¬t.span.Inside c.span := by
  intro hin
  obtain ⟨first, last, -, hlast, -, hstop⟩ := h.ends horder.left
  have hbehind := horder.before (List.mem_of_getLast? hlast) ht
  have hlt := horder.lt t (List.mem_append_right _ ht)
  have hle := hin.stop
  omega

theorem OverIn.ordered (h : OverIn ts cs) (horder : InOrder ts) :
    cs.Pairwise fun c d => c.span.stop ≤ d.span.start := by
  induction cs generalizing ts with
  | nil => exact .nil
  | cons c cs ih =>
      obtain ⟨gap, own, more, rfl, hown, hmore⟩ := overIn_cons.mp h
      refine List.pairwise_cons.mpr ⟨fun d hd => ?_, ih hmore horder.right⟩
      obtain ⟨own', hstretch, hown'⟩ := hmore.of_mem hd
      obtain ⟨t, u, -, hlast, -, hstop⟩ := hown.ends horder.left.right
      obtain ⟨t', u', hhead, -, hspan, -⟩ := hown'.ends (horder.right.sublist hstretch.sublist)
      have ht' : t' ∈ more := hstretch.subset (List.mem_of_mem_head? hhead)
      rw [hstop, hspan]
      exact horder.before (List.mem_append_right _ (List.mem_of_getLast? hlast)) ht'

theorem Node.Over.placed_here (h : n.Over ts) (horder : InOrder ts) : n.Placed ts := by
  have hover : (Element.node n).Over ts := Element.over_node.mpr h
  obtain ⟨t, u, hhead, hlast, hspan, hstop⟩ := hover.ends horder
  have hspan : n.span = t.span.upTo u.span := hspan
  have hin : OverIn ts n.children := by
    cases n
    exact (Node.over_mk.mp h).2
  refine ⟨⟨t, List.mem_of_mem_head? hhead, ?_⟩, ⟨u, List.mem_of_getLast? hlast, hstop⟩,
    fun c hc => ?_, hin.ordered horder⟩
  · rw [hspan]
    exact ⟨rfl, rfl, rfl⟩
  · obtain ⟨own, hstretch, hown⟩ := hin.of_mem hc
    exact (hown.span_inside (horder.sublist hstretch.sublist) fun v hv =>
      hover.inside horder (hstretch.subset hv)).1

/-- Everywhere in a tree nodes are placed as they should be among the tokens the tree lies over. -/
theorem Node.Over.placed {n m : Node} {ts : List Token} (h : n.Over ts) (horder : InOrder ts)
    (hm : m ∈ n.family) : m.Placed ts := by
  rcases Node.mem_family.mp hm with rfl | ⟨k, hk, hm⟩
  · exact h.placed_here horder
  · have hin : OverIn ts n.children := by
      cases n
      exact (Node.over_mk.mp h).2
    obtain ⟨own, hstretch, hown⟩ := hin.of_mem (Node.mem_nodes.mp hk)
    have hplaced := Node.Over.placed (Element.over_node.mp hown)
      (horder.sublist hstretch.sublist) hm
    exact hplaced.mono hstretch.subset
termination_by sizeOf n
decreasing_by exact Node.sizeOf_lt hk

end Storyworld
