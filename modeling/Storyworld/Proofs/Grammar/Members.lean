import Mathlib.Data.List.Forall2
import Storyworld.Proofs.Grammar.Consumes
import Storyworld.Proofs.Layout.Anywhere

namespace Storyworld

/-- The room lists among some parts. -/
def Element.roomLists (cs : List Element) : List (List Token) :=
  ((nodes cs).filter (·.rule = .idList)).map Node.tokens

theorem Element.roomLists_node {n : Node} (h : n.rule = .idList) : roomLists [.node n] = [n.tokens] := by
  simp [roomLists, nodes, node?, h]

/-- The room lists right below a node. -/
def Node.roomLists (n : Node) : List (List Token) :=
  Element.roomLists n.children

namespace Grammar

/-! What the members of a condition group are made of. Where no fault is recorded, the commas between
the parentheses of a group go to its members and to their room lists as the tokens behind them
tell. -/

variable {c : Context} {α β : Type} {p q : Parse α} {f : α → Parse β} {g : α → β} {w what : String}

/-- A parser that takes no comma outside of parentheses, and whose results satisfy `P`. -/
def Plain (c : Context) (p : Parse α) (P : α → Prop) : Prop :=
  Consumes c p fun a own => Commaless own ∧ P a

namespace Plain

variable {P : α → Prop} {N : β → Prop}

theorem bind (hp : Plain c p P) (hf : ∀ a, Plain c (f a) fun b => P a → N b) :
    Plain c (p >>= f) N :=
  Consumes.bind hp fun a => (hf a).mono fun _ _ h _ ha => ⟨ha.1.append h.1, h.2 ha.2⟩

theorem map (hp : Plain c p P) (h : ∀ a, P a → N (g a)) : Plain c (g <$> p) N :=
  Consumes.map hp fun a _ ha => ⟨ha.1, h a ha.2⟩

theorem done {a : α} (h : P a) : Plain c (pure a) P :=
  Consumes.done ⟨.nil, h⟩

theorem given {H : Prop} (hp : Plain c p P) : Plain c p fun a => H → P a :=
  hp.mono fun _ _ h => ⟨h.1, fun _ => h.2⟩

theorem ite {b : Prop} [Decidable b] (hp : Plain c p P) (hq : Plain c q P) :
    Plain c (if b then p else q) P :=
  Consumes.ite (fun _ => hp) fun _ => hq

theorem take {expected : List String} {accept : Token → Bool} (h : ∀ t, accept t → Commaless [t]) :
    Plain c (expect expected accept) fun _ => True :=
  (Consumes.take _ _).mono fun t _ ht => ⟨ht.1 ▸ h t ht.2, trivial⟩

theorem word : Plain c (Grammar.word what) fun _ => True :=
  take fun _ h => .plain fun _ => Token.isMark_of_isWord h

theorem keyword : Plain c (Grammar.keyword w) fun _ => True :=
  (take fun _ h => .plain fun _ => Token.isMark_of_isKeyword h).map fun _ h => h

theorem oneOf {ws : List String} : Plain c (Grammar.oneOf ws) fun _ => True :=
  take fun _ h => .plain fun _ => Token.isMark_of_isOneOf h

theorem mark {m : Mark} (ho : m ≠ .openParen) (hc : m ≠ .closeParen) (hm : m ≠ .comma) :
    Plain c (Grammar.mark m) fun _ => True :=
  (take fun _ h => .token (Token.isMark_of_isMark h ho) (Token.isMark_of_isMark h hc)
    (Token.isMark_of_isMark h hm)).map fun _ h => h

theorem number : Plain c Grammar.number fun _ => True := by
  refine bind (take fun t h => .plain fun m => ?_) fun t =>
    given (ite (Consumes.fails fun _ _ => rfl) (done trivial))
  simp [Token.isMark, of_decide_eq_true h]

theorem clause (hp : Plain c p P) (hq : Plain c q P) :
    Plain c (do if ← eatKeyword w then p else q) P := by
  refine Consumes.clause (hp.mono fun _ own h t ht => ?_) hq
  have hword : Commaless [t] := .plain fun _ => Token.isMark_of_isKeyword ht
  exact ⟨hword.append h.1, h.2⟩

/-- A part of a condition that is one word. -/
theorem wordOf {r : Rule} (hr : r ∉ [Rule.condAmbient, .condInRooms]) :
    Plain c (do return (r, [.token (← Grammar.word what)])) fun x : Rule × List Element =>
      Element.roomLists x.2 = [] ∧ x.1 ∉ [Rule.condAmbient, .condInRooms] :=
  word.map fun _ _ => ⟨rfl, hr⟩

theorem mood : Plain c Grammar.mood fun n => n.rule ≠ .idList := by
  have hnode {r : Rule} {parts : Parse (List Element)} (hr : r ≠ .idList)
      (hp : Plain c parts fun _ => True) : Plain c (Grammar.node r parts) fun n => n.rule ≠ .idList := by
    exact (Consumes.node hp).mono fun n _ ⟨hrule, h, _⟩ => ⟨h, fun hn => hr (hrule.symm.trans hn)⟩
  have hname : Plain c (do
      if ← eatMark .openParen then
        let name ← Grammar.word "state name"
        Grammar.mark .closeParen
        return [Element.token name]
      else return [.token (← Grammar.word "state name")]) fun _ => True := by
    refine Consumes.told (Consumes.bind word fun name => (Consumes.mark .closeParen).map ?_)
      (word.map fun _ h => h)
    rintro _ _ ⟨closing, rfl, hc⟩ inner hinner opening ho
    exact ⟨.parens ho hc hinner.1.matched, trivial⟩
  rw [mood_eq]
  refine (Consumes.look _).bind fun named => .ite (fun _ => ?_) fun _ => ?_
  · refine (hnode (by decide) (keyword.bind fun _ => given hname)).mono ?_
    rintro n own h _ rfl
    exact h
  · refine (hnode (by decide) (word.map fun _ h => h)).mono ?_
    rintro n own h _ rfl
    exact h

end Plain

/-- What the tokens of conditions about rooms and spinners are. -/
structure Worded (x : Rule × List Element) (own : List Token) : Prop where
  /-- A spinner without a room list is all there is behind its keyword. -/
  ambient : x.1 = .condAmbient → Element.roomLists x.2 = [] → ∃ ambient spinner,
    own = [ambient, spinner] ∧ ambient.isKeyword "ambient" ∧ Element.tokens x.2 = [spinner]
  rooms : x.1 = .condInRooms → ∃ inside behind list, own = inside :: behind :: list ∧
    inside.isKeyword "in" ∧ behind.isKeyword "rooms"

theorem Worded.of_not_mem {x : Rule × List Element} {own : List Token}
    (h : x.1 ∉ [Rule.condAmbient, .condInRooms]) : Worded x own := by
  constructor <;> exact fun hr => absurd hr fun hr => h (by simp [hr])

/-- What the tokens of a condition with some parts have to do with its rule and these. -/
def Said (x : Rule × List Element) (own : List Token) : Prop :=
  Member (Element.roomLists x.2) own ∧ Worded x own

namespace Consumes

/-! ## Room lists -/

/-- The rooms of a list in a group. -/
theorem roomList : Consumes c (Grammar.roomList .grouped) fun n own => ∃ first rooms rest,
    Element.roomLists [.node n] = [first :: rooms] ∧ own = first :: rest ∧ first.isWord ∧
      Behind LaterRoom rooms rest := by
  have hroom : Consumes c (Grammar.word "room id") fun t own => own = [t] ∧ t.isWord := take _ _
  have hrow : Consumes c (Grammar.commaSeparated (word "room id") (continuesRooms .grouped))
      (Row (fun t own => own = [t] ∧ t.isWord) LaterRoom) := by
    rw [continuesRooms_grouped]
    refine commaSeparated (.take _ _) hroom ?_
    rintro comma t _ more ⟨rfl, ht⟩ htest
    exact ⟨rfl, ht, by simpa [ht] using htest⟩
  have htokens : Consumes c (List.map Element.token <$>
      Grammar.commaSeparated (word "room id") (continuesRooms .grouped)) fun cs own =>
        Row (fun t own => own = [t] ∧ t.isWord) LaterRoom (Element.tokens cs) own :=
    hrow.map fun ts _ h => by rwa [Element.tokens_map]
  refine (node htokens).mono ?_
  rintro n _ ⟨hn, first, rooms, _, rest, hrooms, rfl, ⟨rfl, hfirst⟩, hbehind⟩
  exact ⟨first, rooms, rest, (Element.roomLists_node hn).trans (congrArg ([·]) hrooms), rfl, hfirst,
    hbehind⟩

/-- A condition without a room list, behind its first word. -/
theorem plain {p : Parse (Rule × List Element)} (hw : w ∈ conditionStarters) (hin : w ≠ "in")
    (hambient : w ≠ "ambient")
    (hp : Plain c p fun x =>
      Element.roomLists x.2 = [] ∧ x.1 ∉ [Rule.condAmbient, .condInRooms]) :
    Consumes c p fun x own => ∀ t, t.isKeyword w → Said x (t :: own) := by
  refine hp.mono fun x own ⟨hown, hlists, hrule⟩ t ht => ⟨?_, .of_not_mem hrule⟩
  have hcommaless : Commaless ([t] ++ own) :=
    .append (.plain fun _ => Token.isMark_of_isKeyword ht) hown
  rw [hlists]
  exact .of_commaless hcommaless (startsCondition_of_isKeyword hw ht)
    (listsIn_of_isKeyword ht hin hambient)

/-- What follows the word `in`. -/
theorem inRooms : Consumes c (do
    Grammar.keyword "rooms"
    return (Rule.condInRooms, [Element.node (← Grammar.roomList .grouped)])) fun x own =>
      ∀ t, t.isKeyword "in" → Said x (t :: own) := by
  refine (keyword "rooms").bind fun _ => roomList.map ?_
  rintro n _ ⟨first, rooms, rest, hlists, rfl, hfirst, hrooms⟩ _ ⟨behindIn, rfl, hb⟩ t ht
  refine ⟨?_, nofun, fun _ => ⟨t, behindIn, _, rfl, ht, hb⟩⟩
  have hplain : ∀ u ∈ [t, behindIn], ∀ m, u.isMark m = false := by
    simp [Token.isMark_of_isKeyword ht, Token.isMark_of_isKeyword hb]
  rw [hlists]
  refine .of_rooms (.plains hplain) hfirst hrooms (startsCondition_of_isKeyword (by decide) ht) ?_
  simp [listsIn, ht, ← hrooms.filter_list hfirst]

/-- What follows the spinner of an ambient condition. -/
theorem ambientRooms (spinner : Token) : Consumes c (Grammar.ambientRooms spinner .grouped)
    fun x own => ∀ t, t.isKeyword "ambient" → spinner.isWord → Said x (t :: spinner :: own) := by
  have hnot {t : Token} (ht : t.isKeyword "ambient") : t.isKeyword "in" = false :=
    Token.isKeyword_of_isKeyword ht (by decide)
  refine (look _).bind fun found => .ite (fun _ => ?_) fun _ => ?_
  · refine (keyword "in").bind fun _ => (keyword "rooms").bind fun _ => roomList.map ?_
    rintro n _ ⟨first, rooms, rest, hlists, rfl, hfirst, hrooms⟩ _ ⟨behindIn, rfl, hb⟩ _
      ⟨inside, rfl, hi⟩ _ rfl t ht hspinner
    have hplain : ∀ u ∈ [t, spinner, inside, behindIn], ∀ m, u.isMark m = false := by
      simp [Token.isMark_of_isKeyword ht, Token.isMark_of_isWord hspinner,
        Token.isMark_of_isKeyword hi, Token.isMark_of_isKeyword hb]
    have hparts : Element.roomLists [.token spinner, .node n] = [first :: rooms] := hlists
    refine ⟨?_, fun _ hnone => absurd (hparts.symm.trans hnone) (by simp), by simp⟩
    rw [hparts]
    refine .of_rooms (.plains hplain) hfirst hrooms (startsCondition_of_isKeyword (by decide) ht) ?_
    simp [listsIn, ht, hi, hnot ht, ← hrooms.filter_list hfirst]
  · refine done ?_
    rintro _ rfl t ht hspinner
    have hplain : ∀ u ∈ [t, spinner], ∀ m, u.isMark m = false := by
      simp [Token.isMark_of_isKeyword ht, Token.isMark_of_isWord hspinner]
    exact ⟨.of_commaless (.plains hplain) (startsCondition_of_isKeyword (by decide) ht)
      (by simp [listsIn, hnot ht]), fun _ _ => ⟨t, spinner, rfl, ht, rfl⟩, by simp⟩

theorem ambientCondition : Consumes c (Grammar.ambientCondition .grouped) fun x own =>
    ∀ t, t.isKeyword "ambient" → Said x (t :: own) := by
  rw [ambientCondition_eq]
  refine (take _ _).bind fun spinner => (ambientRooms spinner).mono ?_
  rintro x own h _ ⟨rfl, hspinner⟩ t ht
  exact h t ht hspinner

theorem query : Consumes c (Grammar.query .grouped) Said := by
  refine clause ?has (clause ?missing (clause ?flag (clause ?withNpc (clause ?npc (clause ?player
    (clause ?container (clause ?chance (clause ?ambient (clause ?rooms (unexpected _))))))))))
  case has =>
    refine plain (by decide) (by decide) (by decide) (Plain.oneOf.bind fun what => .given ?_)
    exact .ite (.wordOf (by decide)) (.ite (.wordOf (by decide))
      (Plain.keyword.bind fun _ => (Plain.wordOf (by decide)).given))
  case missing =>
    refine plain (by decide) (by decide) (by decide) (Plain.oneOf.bind fun what => .given ?_)
    exact .wordOf (by split <;> decide)
  case flag =>
    refine plain (by decide) (by decide) (by decide) (.clause ?_ ?_)
    · exact Plain.keyword.bind fun _ => (Plain.wordOf (by decide)).given
    · exact Plain.oneOf.bind fun _ => (Plain.wordOf (by decide)).given
  case withNpc =>
    refine plain (by decide) (by decide) (by decide) (Plain.keyword.bind fun _ => .given ?_)
    exact .wordOf (by decide)
  case npc =>
    refine plain (by decide) (by decide) (by decide) (.clause ?_ ?_)
    · refine Plain.keyword.bind fun _ => Plain.word.bind fun npc => Plain.word.map ?_
      exact fun _ _ _ _ => ⟨rfl, by simp⟩
    · refine Plain.oneOf.bind fun _ => Plain.keyword.bind fun _ => Plain.word.bind fun npc => ?_
      refine Plain.mood.map fun n hn _ _ _ => ⟨?_, by simp⟩
      simpa [Element.roomLists, Element.nodes, Element.node?] using hn
  case player =>
    refine plain (by decide) (by decide) (by decide) (Plain.keyword.bind fun _ => .given ?_)
    exact Plain.keyword.bind fun _ => (Plain.wordOf (by decide)).given
  case container =>
    refine plain (by decide) (by decide) (by decide) (Plain.word.bind fun container => .given ?_)
    refine Plain.keyword.bind fun _ => Plain.keyword.bind fun _ => Plain.word.map ?_
    exact fun _ _ _ _ => ⟨rfl, by simp⟩
  case chance =>
    refine plain (by decide) (by decide) (by decide) (Plain.number.bind fun percent => .given ?_)
    exact (Plain.mark (by decide) (by decide) (by decide)).map fun _ _ => ⟨rfl, by simp⟩
  case ambient => exact ambientCondition
  case rooms => exact inRooms

end Consumes

end Grammar

open Grammar

/-! ## Groups -/

/-- The commas between the parentheses of a group are for what the tokens behind them tell. -/
structure Node.Attributes (m : Node) (inner : List Token) : Prop where
  /-- The members are as many as the commas that lead to one, and one more. -/
  count : m.nodes.length = 1 + separators 0 inner
  /-- A member lies over the tokens from one of these commas to the next one, and its room lists are
  those that these tokens spell. -/
  members : List.Forall₂ (fun n own => n.Over own ∧ n.roomLists = listsIn own) m.nodes (cut 0 inner)
  /-- Every other comma stands between two rooms of one list. -/
  between : ∀ lead comma tail, inner = lead ++ comma :: tail → comma.isMark .comma →
    lead.foldl parensAfter 0 = 0 → startsCondition tail = false →
      ∃ n ∈ m.nodes, Between n.roomLists lead tail
  /-- No room behind the first one of a list begins a condition. -/
  later : ∀ n ∈ m.nodes, ∀ rooms ∈ n.roomLists, ∀ t ∈ rooms.tail, t.isOneOf conditionStarters = false

namespace Grammar

/-- A condition in a group and its tokens. -/
def Joined (n : Node) (own : List Token) : Prop :=
  Said (n.rule, n.children) own ∧ n.Over own

theorem Joined.member {n : Node} {own : List Token} (h : Joined n own) : Member n.roomLists own :=
  h.1.1

theorem Row.attributes {m : Node} {inner : List Token} (h : Row Joined Joined m.nodes inner) :
    m.Attributes inner ∧ List.Forall₂ Joined m.nodes (cut 0 inner) := by
  obtain ⟨n, ns, first, rest, hnodes, rfl, hfirst, hbehind⟩ := h
  have hjoined : ∀ n own, Joined n own → Member n.roomLists own := fun _ _ h => h.member
  have hcut : List.Forall₂ Joined m.nodes (cut 0 (first ++ rest)) :=
    hnodes ▸ hbehind.cut_members hjoined hfirst
  have hmembers := hcut.imp fun _ _ h => And.intro h.2 h.member.told
  refine ⟨⟨hcut.length_eq.trans (length_cut 0 _), hmembers, ?_, ?_⟩, hcut⟩
  · intro lead comma tail hinner hcomma hlevel htail
    rw [hnodes]
    exact hbehind.between_members hjoined hfirst hinner hcomma hlevel htail
  · have hlater := hcut.imp fun n own h => And.intro h.member.later h
    exact ((List.forall₂_and_left _ _).mp hlater).1

theorem Row.matched {ns : List Node} {inner : List Token} (h : Row Joined Joined ns inner) :
    Matched inner := by
  obtain ⟨n, ns, first, rest, -, rfl, hfirst, hbehind⟩ := h
  exact hbehind.matched_members (fun _ _ h => h.member) hfirst

/-- The tokens of a group, and what those between its parentheses are for where there are any. -/
def Grouping (m : Node) (own : List Token) : Prop :=
  ∃ group opening inner closing, own = group :: (opening :: inner ++ [closing]) ∧
    group.isOneOf ["any", "all"] ∧ opening.isMark .openParen ∧ closing.isMark .closeParen ∧
      Matched inner ∧ m.Over own ∧ m.Attributes inner ∧
        List.Forall₂ Joined m.nodes (cut 0 inner)

/-- The groups in a tree have their tokens among some tokens. -/
def Attributed (ts : List Token) (n : Node) : Prop :=
  ∀ m ∈ n.family, m.rule ∈ Rule.groups → m.nodes ≠ [] → ∃ own, own <:+: ts ∧ Grouping m own

theorem Attributed.mono {ts us : List Token} {n : Node} (h : Attributed ts n) (hts : ts <:+: us) :
    Attributed us n := by
  intro m hm hr hne
  obtain ⟨own, hown, hgroup⟩ := h m hm hr hne
  exact ⟨own, hown.trans hts, hgroup⟩

theorem Attributed.of_isFlat {ts : List Token} {n : Node} (h : n.IsFlat) : Attributed ts n := by
  intro m hm hr
  have hgroups : ∀ r ∈ Rule.groups, r.isFlat = false := by decide
  exact absurd (h m hm) (by simp [hgroups _ hr])

/-- The tokens of a group are those of a condition without a room list. -/
theorem Member.of_group {group opening closing : Token} {inner : List Token}
    (hg : group.isOneOf ["any", "all"]) (ho : opening.isMark .openParen)
    (hc : closing.isMark .closeParen) (hi : Matched inner) :
    Member [] (group :: (opening :: inner ++ [closing])) := by
  obtain ⟨w, hw, hkind⟩ := Token.isOneOf_iff.mp hg
  have hkeyword : group.isKeyword w := Token.isKeyword_iff.mpr hkind
  have hwords : ∀ w ∈ ["any", "all"], w ∈ conditionStarters ∧ w ≠ "in" ∧ w ≠ "ambient" := by decide
  have hcommaless : Commaless ([group] ++ (opening :: inner ++ [closing])) :=
    .append (.plain fun _ => Token.isMark_of_isOneOf hg) (.parens ho hc hi)
  obtain ⟨hstarter, hin, hambient⟩ := hwords w hw
  exact .of_commaless hcommaless (startsCondition_of_isKeyword hstarter hkeyword)
    (listsIn_of_isKeyword hkeyword hin hambient)

/-- A condition in a group, with the groups in it. -/
structure MemberNode (n : Node) (own : List Token) : Prop where
  joined : Joined n own
  rule : n.rule ≠ .idList
  attributed : Attributed own n

/-- The tokens of a group that has some members. -/
def GroupTokens (members : List Node) (own : List Token) : Prop :=
  ∃ group opening inner closing, own = group :: (opening :: inner ++ [closing]) ∧
    group.isOneOf ["any", "all"] ∧ opening.isMark .openParen ∧ closing.isMark .closeParen ∧
      (members = [] ∧ inner = [] ∨ Row MemberNode MemberNode members inner)

/-- A group is a condition without a room list itself, and its commas are for what they should be. -/
theorem GroupTokens.attributed {n : Node} {own : List Token} (h : GroupTokens n.nodes own)
    (hr : n.rule ∈ Rule.groups) (hover : n.Over own) :
    Said (n.rule, n.children) own ∧ Attributed own n := by
  obtain ⟨group, opening, inner, closing, rfl, hg, ho, hc, h⟩ := h
  have hinner : inner <:+: group :: (opening :: inner ++ [closing]) :=
    ⟨[group, opening], [closing], by simp⟩
  have hown : ∀ k ∈ n.nodes, ∃ own, own <:+: inner ∧ MemberNode k own := by
    rcases h with ⟨hnone, -⟩ | hrow
    · simp [hnone]
    · exact fun k hk => hrow.exists_own hk
  have hlists : n.roomLists = [] := by
    have hrules : n.nodes.filter (·.rule = .idList) = [] :=
      List.filter_eq_nil_iff.mpr fun k hk => by simpa using (hown k hk).elim fun _ h => h.2.rule
    exact congrArg (List.map Node.tokens) hrules
  have hjoined (hne : n.nodes ≠ []) : Row Joined Joined n.nodes inner :=
    (h.resolve_left fun hnone => hne hnone.1).mono fun _ _ h => h.joined
  have hmatched : Matched inner := by
    rcases h with ⟨-, rfl⟩ | hrow
    · exact .nil
    · exact (hrow.mono fun _ _ h => h.joined).matched
  have hgroups : ∀ r ∈ Rule.groups, r ∉ [Rule.condAmbient, .condInRooms] := by decide
  refine ⟨⟨?_, .of_not_mem (hgroups _ hr)⟩, fun m hm hr hne => ?_⟩
  · rw [show Element.roomLists (n.rule, n.children).2 = [] from hlists]
    exact .of_group hg ho hc hmatched
  rcases Node.mem_family.mp hm with rfl | ⟨k, hk, hm⟩
  · exact ⟨_, List.infix_rfl, group, opening, inner, closing, rfl, hg, ho, hc, hmatched, hover,
      (hjoined hne).attributes⟩
  · obtain ⟨own, hsub, hmember⟩ := hown k hk
    exact hmember.attributed.mono (hsub.trans hinner) m hm hr hne

namespace Consumes

variable {member : Parse Node} {place : Place}

/-- The parts of a condition that is no group. -/
theorem flatQuery : Consumes c (Grammar.query place) fun x own =>
    (Node.mk x.1 .origin x.2).IsFlat ∧ (place = .grouped → Said x own) := by
  have hcomposed : Composed (fun _ => True) (fun _ => True) true true (Grammar.query place)
    (Parts _ _ Rule.queries) := .query
  refine ⟨hcomposed.advances.weaken (by simp), fun hclean hown => ⟨?_, ?_⟩⟩
  · exact hcomposed.flatParts_found (by decide) (.query place) hclean.run
  · rintro rfl
    exact query.run hclean hown

/-- The parts of a condition. -/
theorem conditionParts (ha : Advances true member) (hm : Consumes c member MemberNode) :
    Consumes c (do
      if ← Grammar.atOneOf ["any", "all"] then
        let group ← Grammar.oneOf ["any", "all"]
        let members ← Grammar.parenthesized member
        let rule := if group.text = "any" then Rule.condAny else .condAll
        return (rule, members.map Element.node)
      else Grammar.query place) fun x own =>
        x.1 ∈ Rule.groups ∧ GroupTokens (Element.nodes x.2) own ∨
        (Node.mk x.1 .origin x.2).IsFlat ∧ (place = .grouped → Said x own) := by
  have hat : Consumes c (Grammar.atOneOf ["any", "all"]) fun _ own => own = [] :=
    look fun r => r[0]?.any (·.isOneOf ["any", "all"])
  refine hat.bind fun found => .ite (fun _ => ?_) fun _ => ?_
  · refine (take _ _).bind fun group => (parenthesized ha hm).map ?_
    rintro ns _ ⟨opening, closing, inner, rfl, ho, hc, hns⟩ _ ⟨rfl, hg⟩ _ rfl
    refine .inl ⟨?_, group, opening, inner, closing, rfl, hg, ho, hc, ?_⟩
    · split <;> simp [Rule.groups]
    · rwa [Element.nodes_map]
  · refine flatQuery.mono ?_
    rintro x own h _ rfl
    exact .inr h

theorem conditionOver (hl : Lays true [] (fun n => [.node n]) member)
    (hm : Consumes c member MemberNode) : Consumes c (Grammar.conditionOver member place)
      fun n own => (place = .grouped → Said (n.rule, n.children) own) ∧ n.Over own ∧
        Attributed own n := by
  refine ((nodeBy (conditionParts hl.advances hm)).and (nodeOver (.conditionOver hl place))).mono ?_
  rintro n own ⟨⟨hr, hgroup⟩ | ⟨hflat, hquery⟩, hover⟩
  · obtain ⟨hsaid, hattributed⟩ := hgroup.attributed hr hover
    exact ⟨fun _ => hsaid, hover, hattributed⟩
  · exact ⟨hquery, hover, .of_isFlat (hflat.of_bare (by cases n; rfl))⟩

theorem condition (levels : Nat) : Consumes c (Grammar.condition levels place) fun n own =>
    (place = .grouped → Said (n.rule, n.children) own) ∧ n.Over own ∧ Attributed own n := by
  induction levels generalizing place with
  | zero => exact conditionOver .tooDeep (fails fun _ _ => run_failHere _)
  | succ levels ih =>
      refine conditionOver (.condition levels .grouped) ⟨ih.advances, fun {s n s' own} hclean hown => ?_⟩
      obtain ⟨hsaid, hover, hattributed⟩ := ih.run hclean hown
      have hcomposed : Composed (fun _ => True) (fun _ => True) true true
        (Grammar.condition levels .grouped) (Grown _ _ Rule.conditions) :=
        (Composed.condition levels _).mono fun _ h => h.1
      have hrule : n.rule ∈ Rule.conditions :=
        hcomposed.rule_found (.condition levels .grouped) hclean.run
      have hconditions : ∀ r ∈ Rule.conditions, r ≠ .idList := by decide
      exact ⟨⟨hsaid rfl, hover⟩, hconditions _ hrule, hattributed⟩

end Consumes

end Grammar

end Storyworld
