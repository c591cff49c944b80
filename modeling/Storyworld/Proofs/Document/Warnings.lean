import Storyworld.Outcome
import Storyworld.Proofs.Document.Attribution
import Storyworld.Proofs.Shape.Listing

namespace Storyworld

/-! Rooms that stray from their spinner: in a condition group, a question about a spinner anywhere
and, right behind it, one about rooms on their own. The warnings of a source are about these pairs,
one for one and in the order of the document. -/

/-! ## Strays of a document -/

/-- The spinner of a question without rooms, and the rooms of the question behind it. -/
structure Stray where
  spinner : Id .spinner
  rooms : List (Id .room)
deriving DecidableEq, Repr

namespace Condition

/-- Whether two neighbours are such questions, and what they name. -/
def stray? : Condition → Condition → Option Stray
  | single (.ambient spinner none), single (.inRooms rooms) => some ⟨spinner, rooms⟩
  | _, _ => none

/-- The strays among the members of a group. -/
def strays : List Condition → List Stray
  | a :: b :: more => (stray? a b).toList ++ strays (b :: more)
  | _ => []

theorem stray?_eq_some {a b : Condition} {s : Stray} :
    stray? a b = some s ↔ a = single (.ambient s.spinner none) ∧ b = single (.inRooms s.rooms) := by
  unfold stray?
  split
  · obtain ⟨spinner, rooms⟩ := s
    simp
  · rename_i hnot
    simp only [reduceCtorEq, false_iff]
    rintro ⟨rfl, rfl⟩
    exact hnot _ _ rfl rfl

end Condition

/-- Every group in a trigger by its members, a group before those in it. -/
def Listing.groups : Listing (List Condition) where
  query _ := []
  group members := [members]
  effect _ := []
  turns _ := []
  retry _ := []

/-- The condition groups of a definition. Only triggers have some. -/
def Definition.groups : Definition → List (List Condition)
  | trigger t => Statement.listIn .groups t.block
  | _ => []

/-- The strays of a document, group by group. -/
def Document.strays (d : Document) : List Stray :=
  (d.definitions.flatMap Definition.groups).flatMap Condition.strays

open Shape

/-! ## Groups of a tree -/

/-- A node, if it is a condition group. -/
def Node.groupOwn (n : Node) : List Node :=
  if n.rule ∈ Rule.groups then [n] else []

theorem Node.groupOwn_of_isFlat {n : Node} (h : n.rule.isFlat) : n.groupOwn = [] := by
  have hgroups : ∀ r ∈ Rule.groups, r.isFlat = false := by decide
  exact if_neg fun hn => by simp [hgroups _ hn] at h

namespace Lint

theorem ofParts_eq (cs : List Element) : ofParts cs = (Element.nodes cs).flatMap ofNode := by
  induction cs with
  | nil => rw [ofParts, Element.nodes_nil, List.flatMap_nil]
  | cons c cs ih =>
      rw [ofParts, ih]
      cases c with
      | token t => rw [ofPart, Element.nodes_cons_token, List.nil_append]
      | node n => rw [ofPart, Element.nodes_cons_node, List.flatMap_cons]

theorem ofGroup_eq (n : Node) : ofGroup n = n.groupOwn.flatMap fun m => pairs m.nodes := by
  have hgroups : n.rule ∈ Rule.groups ↔ n.rule = .condAny ∨ n.rule = .condAll := by
    simp [Rule.groups]
  unfold ofGroup Node.groupOwn
  by_cases hr : n.rule = .condAny ∨ n.rule = .condAll
  · rw [if_pos (by simpa using hr), if_pos (hgroups.mpr hr)]
    simp
  · rw [if_neg (by simpa using hr), if_neg (hr ∘ hgroups.mp)]
    rfl

/-- The warnings of a tree are those of its groups. -/
theorem ofNode_eq (n : Node) :
    ofNode n = (n.gather Node.groupOwn).flatMap fun m => pairs m.nodes := by
  obtain ⟨r, s, cs⟩ := n
  have hbelow : (Element.nodes cs).flatMap ofNode = (Element.nodes cs).flatMap fun m =>
      (m.gather Node.groupOwn).flatMap fun m => pairs m.nodes :=
    List.flatMap_congr fun m hm => ofNode_eq m
  rw [Node.gather_eq, List.flatMap_append, List.flatMap_assoc, ofNode, ofParts_eq, hbelow,
    ofGroup_eq]
  rfl
termination_by sizeOf n
decreasing_by exact Node.sizeOf_lt hm

end Lint

variable {T : Token → Prop} {n : Node} {limit : Nat}

namespace Listing

/-- A condition group that is built, and its members. -/
def GroupOf (T : Token → Prop) (members : List Condition) (n : Node) : Prop :=
  n.Every (fun m => m.isFilled) T ∧ n.rule ∈ Rule.groups ∧
    List.Forall₂ (fun k q => ∃ limit levels, condition limit levels k = .ok q) n.nodes members

theorem groups_matches (T : Token → Prop) :
    groups.Matches Node.groupOwn (GroupOf T) T Rule.isFlat := by
  have hquiet {n : Node} (hn : n.Every (fun m => m.isFilled) T) (hr : n.rule.isFlat) :
      List.Forall₂ (GroupOf T) [] (n.gather Node.groupOwn) := by
    rw [Node.gather_eq_nil Rule.closed_isFlat (fun _ h => Node.groupOwn_of_isFlat h) hn hr]
    exact .nil
  have hflat {rules : List Rule} {r : Rule} (hr : r ∈ rules) (h : rules.all Rule.isFlat) :
      r.isFlat :=
    List.all_eq_true.mp h r hr
  have hschedules : ∀ r ∈ Rule.schedules, r ∉ Rule.groups := by decide
  have hframe : ∀ r ∈ [Rule.triggerDef, .triggerBlock, .doStmt, .condBlock], r ∉ Rule.groups := by
    decide
  exact {
    closed := Rule.closed_isFlat
    silent := fun _ h => Node.groupOwn_of_isFlat h
    around := by decide
    frame := fun hr => if_neg (hframe _ hr)
    query := fun hn hr _ => hquiet hn (hflat hr (by decide))
    group := fun {n members} hn hr hmembers => by
      rw [Node.groupOwn, if_pos hr]
      exact .cons ⟨hn, hr, hmembers⟩ .nil
    effect := fun hn hr _ => hquiet hn (hflat hr (by decide))
    patch := fun hn hr => hquiet hn (by rw [hr]; rfl)
    turns := fun {n _ _ _} hr _ _ => by
      rw [Node.groupOwn, if_neg (hschedules _ hr)]
      exact .nil
    retry := fun hn hr _ => hquiet hn (hflat hr (by decide)) }

end Listing

/-- The groups of a definition are those of its construct. -/
theorem Definition.groups_matches (hn : n.Every (fun m => m.isFilled) T) {d : Definition}
    (h : Makes (definition limit n) d) :
    List.Forall₂ (Listing.GroupOf T) d.groups (n.gather Node.groupOwn) := by
  unfold definition at h
  split at h <;> rename_i hr
  case h_8 => exact (makes_fail.mp h).elim
  case h_5 =>
    obtain ⟨t, ht, hd⟩ := (makes_bind fun _ => Blind.done _).mp h
    obtain rfl := makes_done.mp hd
    exact (Listing.groups_matches T).trigger hn hr ht
  case h_1 | h_6 =>
    obtain ⟨x, -, hd⟩ := makes_given.mp h
    obtain rfl := makes_done.mp hd
    rw [(Listing.groups_matches T).gather_quiet hn (by rw [hr]; rfl)]
    exact .nil
  all_goals
    obtain ⟨x, hx, hd⟩ := (makes_bind fun _ => Blind.done _).mp h
    obtain rfl := makes_done.mp hd
    rw [(Listing.groups_matches T).gather_quiet hn (by rw [hr]; rfl)]
    exact .nil

/-! ## Pairs -/

namespace Shape

variable {levels : Nat} {q : Query} {c : Condition}

/-- A question about a spinner names it, and rooms where there is a list of them. -/
theorem query_ambient (hn : n.Every (fun m => m.isFilled) T) (hr : n.rule = .condAmbient)
    (h : query n = .ok q) : ∃ spinner rooms?, q = .ambient spinner rooms? ∧ NamedBy spinner n ∧
      (rooms? = none ↔ n.has .idList = false) := by
  have hrow := n.filled_row hn
  rw [hr] at hrow
  obtain ⟨_, rest, hcs, -, -, hrest⟩ := hrow.one
  unfold query at h
  rw [hr] at h
  obtain ⟨_, h⟩ := parts_eq_ok.mp h
  obtain ⟨spinner, _, hspinner, h⟩ := reads_bind.mp h
  obtain ⟨t, hcs', ht⟩ := reads_id.mp hspinner
  obtain ⟨n?, _, hlist, h⟩ := reads_bind.mp h
  obtain ⟨hlead, rfl⟩ := reads_childOf?.mp hlist
  rw [hcs] at hcs'
  cases hcs'
  have hnamed : NamedBy spinner n := ⟨t, rest, hcs, ht⟩
  have hhas : n.has .idList = n?.isSome := by
    rcases fill_optional_only hrest.1 with rfl | ⟨m, hm, rfl⟩
    · simp [Node.has, Node.nodes, hcs, ← hlead, leading]
    · cases m with
      | token u => cases hm
      | node m =>
          have hlist : m.rule = .idList := by simpa [Part.fits] using hm
          simp [Node.has, Node.nodes, hcs, ← hlead, leading, Element.node?, hlist]
  cases n? with
  | none =>
      obtain ⟨rfl, -⟩ := reads_done.mp h
      exact ⟨spinner, none, rfl, hnamed, by simp [hhas]⟩
  | some list =>
      obtain ⟨rooms, _, -, h⟩ := reads_bind.mp h
      obtain ⟨rfl, -⟩ := reads_done.mp h
      exact ⟨spinner, some rooms, rfl, hnamed, by simp [hhas]⟩

theorem query_inRooms (hr : n.rule = .condInRooms) (h : query n = .ok q) :
    ∃ rooms, q = .inRooms rooms ∧ HeldBy (ListedBy rooms) n := by
  unfold query at h
  rw [hr] at h
  obtain ⟨_, h⟩ := parts_eq_ok.mp h
  obtain ⟨list, rest, hlist, h⟩ := reads_bind.mp h
  obtain ⟨rooms, _, hrooms, h⟩ := reads_bind.mp h
  obtain ⟨rfl, -⟩ := reads_done.mp h
  exact ⟨rooms, rfl, list, rest, reads_child.mp hlist, ids_eq_ok.mp (reads_lift.mp hrooms).1⟩

theorem exists_conditionOver (limit levels : Nat) :
    ∃ member, condition limit levels n = conditionOver member n := by
  cases levels <;> exact ⟨_, rfl⟩

theorem condition_query (hr : n.rule ∉ Rule.groups) (h : condition limit levels n = .ok c) :
    ∃ q, query n = .ok q ∧ c = .single q := by
  obtain ⟨member, hover⟩ := exists_conditionOver limit levels
  rw [hover, conditionOver, if_neg (by simpa [Rule.groups] using hr)] at h
  obtain ⟨q, hq, h⟩ := bind_eq_ok.mp h
  cases h
  exact ⟨q, hq, rfl⟩

theorem query_of_single (h : condition limit levels n = .ok (.single q)) : query n = .ok q := by
  by_cases hr : n.rule ∈ Rule.groups
  · obtain ⟨member, hover⟩ := exists_conditionOver limit levels
    rw [hover, conditionOver, if_pos (by simpa [Rule.groups] using hr)] at h
    obtain ⟨members, -, h⟩ := bind_eq_ok.mp h
    dsimp only at h
    split at h
    · cases h
    · split at h <;> cases h
  · obtain ⟨q', hq, heq⟩ := condition_query hr h
    cases heq
    exact hq

end Shape

/-- Two neighbours in a group that a warning is about. -/
def Stray.SeenIn (m : Node) (s : Stray) (warning : Lint) : Prop :=
  ∃ a b, [a, b] <:+: m.nodes ∧ (a.rule = .condAmbient ∧ a.has .idList = false) ∧
    b.rule = .condInRooms ∧ NamedBy s.spinner a ∧ HeldBy (ListedBy s.rooms) b ∧
    warning = .bareInRooms b.span

/-- Two neighbours are warned of where they are a spinner without rooms and rooms on their own. -/
theorem Lint.pair_matches {m a b : Node} {p q : Condition} {limit levels limit' levels' : Nat}
    (hsub : [a, b] <:+: m.nodes) (ha : a.Every (fun m => m.isFilled) T)
    (hp : condition limit levels a = .ok p) (hq : condition limit' levels' b = .ok q) :
    List.Forall₂ (Stray.SeenIn m) (Condition.stray? p q).toList
      (if isStrayPair a b then [bareInRooms b.span] else []) := by
  have hnot : ∀ r ∈ [Rule.condAmbient, .condInRooms], r ∉ Rule.groups := by decide
  split
  · rename_i hpair
    obtain ⟨⟨har, hbare⟩, hbr⟩ : (a.rule = .condAmbient ∧ a.has .idList = false) ∧
      b.rule = .condInRooms := by simpa [isStrayPair] using hpair
    obtain ⟨_, hquery, rfl⟩ := condition_query (by simp [har, Rule.groups]) hp
    obtain ⟨spinner, rooms?, rfl, hnamed, hnone⟩ := query_ambient ha har hquery
    obtain rfl := hnone.mpr hbare
    obtain ⟨_, hquery, rfl⟩ := condition_query (by simp [hbr, Rule.groups]) hq
    obtain ⟨rooms, rfl, hlist⟩ := query_inRooms hbr hquery
    exact .cons ⟨a, b, hsub, ⟨har, hbare⟩, hbr, hnamed, hlist, rfl⟩ .nil
  · rename_i hpair
    have hnone : Condition.stray? p q = none := by
      refine Option.eq_none_iff_forall_ne_some.mpr fun s hs => hpair ?_
      obtain ⟨rfl, rfl⟩ := Condition.stray?_eq_some.mp hs
      have har : .condAmbient = a.rule := rule_of_query (query_of_single hp)
      have hbr : .condInRooms = b.rule := rule_of_query (query_of_single hq)
      obtain ⟨_, _, heq, -, hbare⟩ := query_ambient ha har.symm (query_of_single hp)
      cases heq
      simp [isStrayPair, ← har, ← hbr, hbare.mp rfl]
    rw [hnone]
    exact .nil

/-- The warnings about a group are about its strays. -/
theorem Lint.pairs_matches {m : Node} {members : List Condition}
    (h : Listing.GroupOf T members m) :
    List.Forall₂ (Stray.SeenIn m) (Condition.strays members) (pairs m.nodes) := by
  obtain ⟨hm, -, hmembers⟩ := h
  suffices hall : ∀ ns, ns <:+ m.nodes → ∀ qs,
      List.Forall₂ (fun k q => ∃ limit levels, condition limit levels k = .ok q) ns qs →
        List.Forall₂ (Stray.SeenIn m) (Condition.strays qs) (pairs ns) from
    hall _ List.suffix_rfl _ hmembers
  intro ns hns qs h
  induction h with
  | nil => exact .nil
  | @cons a p ns qs hp hrest ih =>
      cases hrest with
      | nil => exact .nil
      | @cons b q ns qs hq hrest =>
          obtain ⟨_, _, hp⟩ := hp
          obtain ⟨_, _, hq⟩ := hq
          have hsub : [a, b] <:+: m.nodes := List.IsInfix.trans ⟨[], ns, rfl⟩ hns.isInfix
          have ha : a.Every (fun m => m.isFilled) T := hm.node (hsub.subset (by simp))
          exact List.rel_append (pair_matches hsub ha hp hq) (ih ((List.suffix_cons _ _).trans hns))

/-! ## Tokens -/

open Grammar (Grouping cut enclosed listsIn)

/-- Among some tokens there is a condition group with `inner` between its parentheses. -/
def GroupStands (ts inner : List Token) : Prop :=
  ∃ group opening closing, group :: opening :: inner ++ [closing] <:+: ts ∧
    group.isOneOf ["any", "all"] ∧ opening.isMark .openParen ∧ closing.isMark .closeParen ∧
      enclosed 0 (inner ++ [closing]) = inner

/-- A warning and the pair that it is about. In a condition group that stands among some tokens, one
member is a spinner and the next one some rooms on their own. The warning points at the tokens of
the latter, from the first one to the last one. -/
def Stray.Warned (ts : List Token) (s : Stray) (warning : Lint) : Prop :=
  ∃ inner ambient spinner inside behind list last, GroupStands ts inner ∧
    [[ambient, spinner], inside :: behind :: list] <:+: cut 0 inner ∧
    ambient.isKeyword "ambient" ∧ spinner.text = s.spinner.name ∧
    inside.isKeyword "in" ∧ behind.isKeyword "rooms" ∧
    (list.filter (!·.isMark .comma)).map (·.text) = s.rooms.map (·.name) ∧
    (inside :: behind :: list).getLast? = some last ∧
    warning = .bareInRooms (inside.span.upTo last.span)

/-- What neighbours are related to are neighbours. -/
theorem exists_infix_of_forall₂ {α β : Type} {R : α → β → Prop} {as : List α} {bs : List β}
    {a b : α} (h : List.Forall₂ R as bs) (hsub : [a, b] <:+: as) :
    ∃ c d, [c, d] <:+: bs ∧ R a c ∧ R b d := by
  obtain ⟨front, back, rfl⟩ := hsub
  rw [List.append_assoc] at h
  have hdrop := List.forall₂_drop front.length h
  rw [List.drop_left] at hdrop
  obtain ⟨c, rest, ha, hrest, heq⟩ := List.forall₂_cons_left_iff.mp hdrop
  obtain ⟨d, rest, hb, -, rfl⟩ := List.forall₂_cons_left_iff.mp hrest
  exact ⟨c, d, ⟨bs.take front.length, rest, by simp [← heq]⟩, ha, hb⟩

theorem Stray.SeenIn.warned {ts own : List Token} {m : Node} {s : Stray} {warning : Lint}
    (h : s.SeenIn m warning) (hm : m.Every (fun m => m.isFilled) T) (hown : own <:+: ts)
    (hgroup : Grouping m own) : s.Warned ts warning := by
  obtain ⟨a, b, hsub, ⟨har, hbare⟩, hbr, ⟨t, front, hcs, ht⟩, ⟨k, back, hlist, -, hrooms⟩, rfl⟩ := h
  obtain ⟨group, opening, inner, closing, rfl, hg, ho, hc, hi, -, -, hjoined⟩ := hgroup
  obtain ⟨_, own, hcut, ⟨⟨-, ha⟩, -⟩, ⟨⟨hb, hopens⟩, hover⟩⟩ := exists_infix_of_forall₂ hjoined hsub
  have hnone : Element.roomLists a.children = [] := by
    have hnodes : (Element.nodes a.children).filter (·.rule = .idList) = [] := by
      rw [Node.has, List.any_eq_false] at hbare
      exact List.filter_eq_nil_iff.mpr hbare
    exact congrArg (List.map Node.tokens) hnodes
  obtain ⟨ambient, spinner, rfl, hambient, hspinner⟩ := ha.ambient har hnone
  obtain ⟨inside, behind, list, rfl, hin, hbehind⟩ := hopens.rooms hbr
  have htoken : spinner = t := by
    have hrest : t :: Element.tokens front = [spinner] := by rw [← hspinner, hcs]; rfl
    exact (List.cons_eq_cons.mp hrest).1.symm
  have hrow := b.filled_row (hm.node (hsub.subset (by simp)))
  rw [hbr, hlist] at hrow
  obtain ⟨_, _, heq, hk, -, hback⟩ := hrow.child
  cases heq
  obtain rfl : back = [] := by simpa using hback.1
  have htokens : k.tokens = list.filter (!·.isMark .comma) := by
    have hlists := hb.told
    rw [hlist, Element.roomLists_node (List.mem_singleton.mp hk)] at hlists
    simpa [listsIn, hin] using hlists
  obtain ⟨r, place, cs⟩ := b
  obtain ⟨⟨first, last, hfirst, hlast, rfl⟩, -⟩ := Node.over_mk.mp hover
  cases hfirst
  refine ⟨inner, ambient, spinner, inside, behind, list, last, ?_, hcut, hambient, htoken ▸ ht, hin,
    hbehind, ?_, hlast, rfl⟩
  · refine ⟨group, opening, closing, hown, hg, ho, hc, ?_⟩
    rw [hi.enclosed_append, enclosed, if_pos (by simp [hc]), List.append_nil]
  · rw [← htokens, ← hrooms, List.map_map]
    rfl

/-- Where no fault is found, every construct is built. -/
theorem Built.forall₂_of_faults_eq_nil {ns : List Node} (h : (ofNodes limit ns).faults = []) :
    List.Forall₂ (fun n d => Makes (definition limit n) d) ns (ofNodes limit ns).definitions := by
  induction ns with
  | nil => exact .nil
  | cons n ns ih =>
      obtain ⟨hfirst, hrest⟩ := List.append_eq_nil_iff.mp h
      rw [ofNodes, definitions_append]
      unfold ofNode at hfirst ⊢
      split at hfirst
      case h_1 d hrun => exact .cons hrun (ih hrest)
      case h_2 d faults hne hrun => exact absurd hrun (by simp_all)
      case h_3 => simp at hfirst

theorem Document.strays_matches {root : Node} {comments : List Span}
    (hroot : root.rule = .sourceFile) (hfilled : root.Every (fun m => m.isFilled) T)
    (h : (Built.ofNodes limit root.nodes).faults = []) :
    List.Forall₂
      (fun s warning => ∃ m ∈ root.family, m.rule ∈ Rule.groups ∧ Stray.SeenIn m s warning)
      (Document.strays ⟨(Built.ofNodes limit root.nodes).definitions, comments⟩)
      (Lint.ofNode root) := by
  have hnot : Node.groupOwn root = [] := if_neg (by rw [hroot]; decide)
  have hgroups : List.Forall₂ (Listing.GroupOf T)
      ((Built.ofNodes limit root.nodes).definitions.flatMap Definition.groups)
      (root.gather Node.groupOwn) := by
    rw [Node.gather_eq, hnot, List.nil_append]
    refine Listing.Matches.flatMap (forall₂_of_mem (Built.forall₂_of_faults_eq_nil h) ?_)
    exact fun n hn d hd => Definition.groups_matches (hfilled.node hn) hd
  rw [Lint.ofNode_eq, Document.strays]
  refine Listing.Matches.flatMap (forall₂_of_mem hgroups.flip fun m hm members hgroup => ?_)
  obtain ⟨k, hk, hmem⟩ := List.mem_flatMap.mp hm
  have hmk : m = k := by
    unfold Node.groupOwn at hmem
    split at hmem <;> simp_all
  exact (Lint.pairs_matches hgroup).imp fun _ _ h => ⟨m, hmk ▸ hk, hgroup.2.1, h⟩

namespace Outcome

variable {settings : Settings} {source : List Char}

/-- How a source without faults was read and built. -/
theorem of_isOk (h : (ofSource settings source).isOk) : ∃ tokens, Lexer.tokens source = .ok tokens ∧
    let parsed := Tree.ofTokens settings tokens
    let built := Built.ofTree settings parsed.tree
    parsed.faults = [] ∧ built.faults = [] ∧
      (ofSource settings source).document = some ⟨built.definitions, parsed.tree.comments⟩ ∧
      (ofSource settings source).warnings = Lint.check settings parsed.tree := by
  cases htokens : Lexer.tokens source with
  | error fault => simp [ofSource, htokens, ofLexFault, isOk] at h
  | ok tokens =>
      simp only [ofSource, htokens, ofTokens, isOk, Bool.and_eq_true, List.isEmpty_iff,
        List.append_eq_nil_iff, List.map_eq_nil_iff] at h ⊢
      obtain ⟨⟨hparsed, hbuilt⟩, -⟩ := h
      exact ⟨tokens, rfl, hparsed, hbuilt, by simp [hparsed, hbuilt], by simp [hparsed]⟩

/-- The warnings of a source without faults are about the strays of its document: one for each, in
their order, pointing at its tokens. -/
theorem ofSource_warns (hlint : settings.lintBareInRooms) (hok : (ofSource settings source).isOk) :
    ∃ tokens document, Lexer.tokens source = .ok tokens ∧
      (ofSource settings source).document = some document ∧
      List.Forall₂ (Stray.Warned (Tree.significant tokens)) document.strays
        (ofSource settings source).warnings := by
  obtain ⟨tokens, htokens, hparsed, hbuilt, hdocument, hwarnings⟩ := of_isOk hok
  obtain ⟨hroot, hsound⟩ := (Tree.ofTokens_grown settings htokens).root
  have hfilled := hsound.mono (fun _ hk => hk.filled) fun _ ht => ht
  refine ⟨tokens, _, htokens, hdocument, ?_⟩
  rw [hwarnings, Lint.check, if_pos hlint]
  refine (Document.strays_matches (List.mem_singleton.mp hroot) hfilled hbuilt).imp ?_
  rintro s warning ⟨m, hm, hr, hseen⟩
  have hne : m.nodes ≠ [] := by
    obtain ⟨a, b, hsub, -⟩ := hseen
    rintro hnone
    simp [hnone] at hsub
  obtain ⟨own, hown, hgroup⟩ := Tree.attributed_root hparsed m hm hr hne
  exact hseen.warned (hfilled.of_mem_family hm) hown hgroup

/-- A schedule that waits for a group with a stray behind a group with another one. -/
def strayGroups : String :=
  "trigger \"t\" when always \x7b do schedule in 1 if all(any(ambient s, in rooms a, b), " ++
    "ambient t, in rooms c) \x7b do show \"x\" \x7d \x7d"

theorem ofSource_warns_strayGroups :
    (ofSource {} strayGroups.toList).isOk ∧ ∃ tokens document,
      (ofSource {} strayGroups.toList).document = some document ∧
      document.strays = [⟨⟨"t"⟩, [⟨"c"⟩]⟩, ⟨⟨"s"⟩, [⟨"a"⟩, ⟨"b"⟩]⟩] ∧
      List.Forall₂ (Stray.Warned (Tree.significant tokens)) document.strays
        (ofSource {} strayGroups.toList).warnings := by
  have hrun : (ofSource {} strayGroups.toList).isOk ∧
      (ofSource {} strayGroups.toList).document.all
        (·.strays = [⟨⟨"t"⟩, [⟨"c"⟩]⟩, ⟨⟨"s"⟩, [⟨"a"⟩, ⟨"b"⟩]⟩]) := by
    decide +kernel
  obtain ⟨tokens, document, -, hdocument, hwarns⟩ :=
    @ofSource_warns {} strayGroups.toList rfl hrun.1
  refine ⟨hrun.1, tokens, document, hdocument, ?_, hwarns⟩
  simpa [hdocument] using hrun.2

end Outcome

end Storyworld
