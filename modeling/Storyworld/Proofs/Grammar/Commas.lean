import Storyworld.Condition.Grammar
import Storyworld.Proofs.Token.Scan
import Mathlib.Data.List.Basic

namespace Storyworld

namespace Grammar

/-! What the commas in a condition group are for, told by the tokens alone. A comma that stands
directly between the parentheses of the group leads to a member where the token behind it begins a
condition, and otherwise to a room. -/

variable {α : Type} {depth : Nat} {comma t : Token} {ts us more lead tail own rest : List Token}

/-! ## Commas -/

/-- The parentheses open behind a token. -/
def parensAfter (depth : Nat) (t : Token) : Nat :=
  match t.kind with
  | .mark .openParen => depth + 1
  | .mark .closeParen => depth - 1
  | _ => depth

/-- Whether the first of some tokens begins a condition. -/
def startsCondition (ts : List Token) : Bool :=
  ts.head?.any (·.isOneOf conditionStarters)

/-- Whether a token is a comma that leads to a member; `rest` follows it. -/
def separates (depth : Nat) (t : Token) (rest : List Token) : Bool :=
  depth = 0 && t.isMark .comma && startsCondition rest

/-- The tokens up to the parenthesis that closes those around them. -/
def enclosed : (depth : Nat) → List Token → List Token
  | _, [] => []
  | depth, t :: ts =>
    if depth = 0 && t.isMark .closeParen then [] else t :: enclosed (parensAfter depth t) ts

/-- How many commas lead to a member. -/
def separators : (depth : Nat) → List Token → Nat
  | _, [] => 0
  | depth, t :: ts => (separates depth t ts).toNat + separators (parensAfter depth t) ts

/-- The tokens between the commas that lead to a member. -/
def cut : (depth : Nat) → List Token → List (List Token)
  | _, [] => [[]]
  | depth, t :: ts =>
    if separates depth t ts then [] :: cut (parensAfter depth t) ts
    else (cut (parensAfter depth t) ts).modifyHead (t :: ·)

/-- The room lists that the tokens of a member spell: what stands behind `in rooms`, at the beginning
or behind a spinner, without the commas. -/
def listsIn (own : List Token) : List (List Token) :=
  if own.head?.any (·.isKeyword "in") then [(own.drop 2).filter (!·.isMark .comma)]
  else if own.head?.any (·.isKeyword "ambient") && own[2]?.any (·.isKeyword "in") then
    [(own.drop 4).filter (!·.isMark .comma)]
  else []

/-- A place with some tokens before it and others behind it lies between two rooms that follow one
another in one of some lists. -/
def Between (lists : List (List Token)) (lead tail : List Token) : Prop :=
  ∃ rooms ∈ lists, ∃ a b, lead.getLast? = some a ∧ tail.head? = some b ∧ [a, b] <:+: rooms

theorem startsCondition_append (h : startsCondition ts) : startsCondition (ts ++ us) := by
  cases ts with
  | nil => simp [startsCondition] at h
  | cons t ts => exact h

theorem startsCondition_of_isKeyword {w : String} (hw : w ∈ conditionStarters) (h : t.isKeyword w) :
    startsCondition (t :: ts) :=
  Token.isOneOf_iff.mpr ⟨w, hw, Token.isKeyword_iff.mp h⟩

theorem listsIn_of_isKeyword {w : String} (h : t.isKeyword w) (hin : w ≠ "in")
    (hambient : w ≠ "ambient") : listsIn (t :: ts) = [] := by
  simp [listsIn, Token.isKeyword_of_isKeyword h hin, Token.isKeyword_of_isKeyword h hambient]

theorem parensAfter_open (h : t.isMark .openParen) : parensAfter depth t = depth + 1 := by
  rw [Token.isMark_iff] at h
  simp [parensAfter, h]

theorem parensAfter_close (h : t.isMark .closeParen) : parensAfter depth t = depth - 1 := by
  rw [Token.isMark_iff] at h
  simp [parensAfter, h]

theorem parensAfter_of_not_paren (ho : t.isMark .openParen = false)
    (hc : t.isMark .closeParen = false) : parensAfter depth t = depth := by
  unfold parensAfter
  split <;> simp_all [Token.isMark]

theorem parensAfter_comma (h : t.isMark .comma) : parensAfter depth t = depth := by
  rw [Token.isMark_iff] at h
  simp [parensAfter, h]

theorem separates_of_not_comma (h : t.isMark .comma = false) : separates depth t ts = false := by
  simp [separates, h]

theorem separates_of_pos (h : depth ≠ 0) : separates depth t ts = false := by
  simp [separates, h]

theorem cut_of_separates (h : separates depth t ts) :
    cut depth (t :: ts) = [] :: cut (parensAfter depth t) ts := by
  rw [cut, if_pos h]

theorem cut_of_not_separates (h : separates depth t ts = false) :
    cut depth (t :: ts) = (cut (parensAfter depth t) ts).modifyHead (t :: ·) := by
  rw [cut, if_neg (by simp [h])]

/-- Each comma that leads to a member ends a piece. -/
theorem length_cut (depth : Nat) (ts : List Token) :
    (cut depth ts).length = 1 + separators depth ts := by
  induction ts generalizing depth with
  | nil => rfl
  | cons t ts ih =>
      rw [separators]
      cases hsep : separates depth t ts with
      | true =>
          rw [cut_of_separates hsep, List.length_cons, ih, Bool.toNat_true]
          omega
      | false =>
          rw [cut_of_not_separates hsep, List.length_modifyHead, ih, Bool.toNat_false, Nat.zero_add]

/-- A token in a row of two stands in the first or in the second. -/
theorem split_cases (h : ts ++ us = lead ++ t :: tail) :
    (∃ mid, ts = lead ++ t :: mid ∧ tail = mid ++ us) ∨
      ∃ lead', lead = ts ++ lead' ∧ us = lead' ++ t :: tail := by
  rcases List.append_eq_append_iff.mp h with ⟨lead', rfl, rfl⟩ | ⟨mid, rfl, htail⟩
  · exact .inr ⟨lead', rfl, rfl⟩
  · cases mid with
    | nil => exact .inr ⟨[], by simp, by simpa using htail.symm⟩
    | cons u mid =>
        cases htail
        exact .inl ⟨mid, rfl, rfl⟩

/-! ## Tokens whose parentheses match -/

/-- Tokens in which each parenthesis has its counterpart. -/
inductive Matched : List Token → Prop
  | nil : Matched []
  | token {t : Token} (ho : t.isMark .openParen = false) (hc : t.isMark .closeParen = false) :
      Matched [t]
  | append {ts us : List Token} (h : Matched ts) (h' : Matched us) : Matched (ts ++ us)
  | parens {opening closing : Token} {ts : List Token} (ho : opening.isMark .openParen)
      (hc : closing.isMark .closeParen) (h : Matched ts) : Matched (opening :: ts ++ [closing])

namespace Matched

theorem level (h : Matched ts) (depth : Nat) : ts.foldl parensAfter depth = depth := by
  induction h generalizing depth with
  | nil => rfl
  | token ho hc => exact parensAfter_of_not_paren ho hc
  | append _ _ ih ih' => rw [List.foldl_append, ih, ih']
  | parens ho hc _ ih =>
      simp only [List.foldl_append, List.foldl_cons, List.foldl_nil, ih, parensAfter_open ho,
        parensAfter_close hc, Nat.add_sub_cancel]

/-- Nowhere among the tokens are fewer parentheses open than around them. -/
theorem le_level (h : Matched ts) (hts : ts = lead ++ t :: tail) (depth : Nat) :
    depth ≤ lead.foldl parensAfter depth := by
  induction h generalizing lead tail depth with
  | nil => simp at hts
  | token ho hc =>
      rcases List.append_eq_cons_iff.mp hts.symm with ⟨rfl, -⟩ | ⟨lead', -, hnil⟩
      · exact Nat.le_refl _
      · simp at hnil
  | append h h' ih ih' =>
      rcases split_cases hts with ⟨mid, hts, -⟩ | ⟨lead', rfl, hus⟩
      · exact ih hts depth
      · rw [List.foldl_append, h.level]
        exact ih' hus depth
  | parens ho hc h ih =>
      rcases List.append_eq_cons_iff.mp hts.symm with ⟨rfl, -⟩ | ⟨lead', rfl, hinner⟩
      · exact Nat.le_refl _
      rw [List.foldl_cons, parensAfter_open ho]
      refine Nat.le_trans (Nat.le_succ depth) ?_
      rcases split_cases hinner with ⟨mid, hts, -⟩ | ⟨lead'', rfl, hlast⟩
      · exact ih hts (depth + 1)
      · rcases List.append_eq_cons_iff.mp hlast.symm with ⟨rfl, -⟩ | ⟨_, -, hnil⟩
        · exact Nat.le_of_eq (by rw [List.append_nil, h.level])
        · simp at hnil

/-- The closing parenthesis of what is around the tokens is behind them. -/
theorem enclosed_append (h : Matched ts) (depth : Nat) (more : List Token) :
    enclosed depth (ts ++ more) = ts ++ enclosed depth more := by
  induction h generalizing depth more with
  | nil => rfl
  | token ho hc =>
      rw [List.singleton_append, enclosed, if_neg (by simp [hc]), parensAfter_of_not_paren ho hc,
        List.singleton_append]
  | append _ _ ih ih' => rw [List.append_assoc, ih, ih', List.append_assoc]
  | @parens opening closing ts ho hc _ ih =>
      have hopen : opening.isMark .closeParen = false := by
        rw [Token.isMark_iff] at ho
        simp [Token.isMark, ho]
      rw [List.append_assoc, List.cons_append, enclosed, if_neg (by simp [hopen]),
        parensAfter_open ho, ih, List.singleton_append, enclosed, if_neg (by simp),
        parensAfter_close hc, Nat.add_sub_cancel]
      simp

end Matched

/-! ## Tokens that stay together -/

/-- Tokens that are not cut where `depth` parentheses are open in front of them. -/
def Uncut (depth : Nat) (ts : List Token) : Prop :=
  ∀ more, cut depth (ts ++ more) = (cut depth more).modifyHead (ts ++ ·)

namespace Uncut

theorem nil : Uncut depth [] := by
  intro more
  exact (congrFun List.modifyHead_id _).symm

theorem append (h : Uncut depth ts) (h' : Uncut depth us) : Uncut depth (ts ++ us) := by
  intro more
  rw [List.append_assoc, h, h', List.modifyHead_modifyHead]
  simp [Function.comp_def]

theorem token (ho : t.isMark .openParen = false) (hc : t.isMark .closeParen = false)
    (h : t.isMark .comma = false ∨ depth ≠ 0) : Uncut depth [t] := by
  intro more
  have hsep : separates depth t more = false := h.elim separates_of_not_comma separates_of_pos
  rw [List.singleton_append, cut_of_not_separates hsep, parensAfter_of_not_paren ho hc]
  rfl

theorem parens {opening closing : Token} (ho : opening.isMark .openParen)
    (hc : closing.isMark .closeParen) (h : Uncut (depth + 1) ts) :
    Uncut depth (opening :: ts ++ [closing]) := by
  intro more
  have hopen : opening.isMark .comma = false := Token.isMark_of_isMark ho (by decide)
  have hclose : closing.isMark .comma = false := Token.isMark_of_isMark hc (by decide)
  rw [List.append_assoc, List.cons_append, cut_of_not_separates (separates_of_not_comma hopen),
    parensAfter_open ho, h, List.singleton_append,
    cut_of_not_separates (separates_of_not_comma hclose), parensAfter_close hc, Nat.add_sub_cancel,
    List.modifyHead_modifyHead, List.modifyHead_modifyHead]
  simp [Function.comp_def]

end Uncut

/-- Between parentheses no comma leads to a member of what is around them. -/
theorem Matched.uncut (h : Matched ts) (hd : depth ≠ 0) : Uncut depth ts := by
  induction h generalizing depth with
  | nil => exact .nil
  | token ho hc => exact .token ho hc (.inr hd)
  | append _ _ ih ih' => exact (ih hd).append (ih' hd)
  | parens ho hc _ ih => exact .parens ho hc (ih (Nat.succ_ne_zero _))

/-- Tokens with matching parentheses and without a comma outside of them. -/
inductive Commaless : List Token → Prop
  | nil : Commaless []
  | token {t : Token} (ho : t.isMark .openParen = false) (hc : t.isMark .closeParen = false)
      (h : t.isMark .comma = false) : Commaless [t]
  | append {ts us : List Token} (h : Commaless ts) (h' : Commaless us) : Commaless (ts ++ us)
  | parens {opening closing : Token} {ts : List Token} (ho : opening.isMark .openParen)
      (hc : closing.isMark .closeParen) (h : Matched ts) : Commaless (opening :: ts ++ [closing])

namespace Commaless

/-- A token that is no mark. -/
theorem plain (h : ∀ m, t.isMark m = false) : Commaless [t] :=
  .token (h .openParen) (h .closeParen) (h .comma)

theorem plains (h : ∀ t ∈ ts, ∀ m, t.isMark m = false) : Commaless ts := by
  induction ts with
  | nil => exact .nil
  | cons t ts ih =>
      obtain ⟨ht, hts⟩ := List.forall_mem_cons.mp h
      exact .append (.plain ht) (ih hts)

theorem matched (h : Commaless ts) : Matched ts := by
  induction h with
  | nil => exact .nil
  | token ho hc _ => exact .token ho hc
  | append _ _ ih ih' => exact .append ih ih'
  | parens ho hc h => exact .parens ho hc h

theorem uncut (h : Commaless ts) : Uncut 0 ts := by
  induction h with
  | nil => exact .nil
  | token ho hc h => exact .token ho hc (.inl h)
  | append _ _ ih ih' => exact ih.append ih'
  | parens ho hc h => exact .parens ho hc (h.uncut (Nat.succ_ne_zero 0))

/-- A comma among the tokens stands between parentheses. -/
theorem level_ne_zero (h : Commaless ts) (hts : ts = lead ++ comma :: tail)
    (hcomma : comma.isMark .comma) : lead.foldl parensAfter 0 ≠ 0 := by
  induction h generalizing lead tail with
  | nil => simp at hts
  | token _ _ h =>
      rcases List.append_eq_cons_iff.mp hts.symm with ⟨-, heq⟩ | ⟨lead', -, hnil⟩
      · cases heq
        simp [h] at hcomma
      · simp at hnil
  | append h h' ih ih' =>
      rcases split_cases hts with ⟨mid, hts, -⟩ | ⟨lead', rfl, hus⟩
      · exact ih hts
      · rw [List.foldl_append, h.matched.level]
        exact ih' hus
  | parens ho hc h =>
      rcases List.append_eq_cons_iff.mp hts.symm with ⟨-, heq⟩ | ⟨lead', rfl, hinner⟩
      · cases heq
        simp [Token.isMark_of_isMark ho] at hcomma
      rw [List.foldl_cons, parensAfter_open ho]
      rcases split_cases hinner with ⟨mid, hts, -⟩ | ⟨lead'', -, hlast⟩
      · exact Nat.ne_of_gt (h.le_level hts (0 + 1))
      · rcases List.append_eq_cons_iff.mp hlast.symm with ⟨-, heq⟩ | ⟨_, -, hnil⟩
        · cases heq
          simp [Token.isMark_of_isMark hc] at hcomma
        · simp at hnil

end Commaless

/-! ## Rows with commas -/

/-- What stands behind the first item of a row: items with a comma in front of each, of which `R`
tells what tokens they are. -/
inductive Behind (R : α → List Token → Prop) : List α → List Token → Prop
  | nil : Behind R [] []
  | cons {a : α} {as : List α} {comma : Token} {own rest : List Token} (hc : comma.isMark .comma)
      (h : R a own) (hmore : Behind R as rest) : Behind R (a :: as) (comma :: (own ++ rest))

/-- What a row is made of: a first item and those behind it. -/
def Row (R R' : α → List Token → Prop) (as : List α) (ts : List Token) : Prop :=
  ∃ a more own rest, as = a :: more ∧ ts = own ++ rest ∧ R a own ∧ Behind R' more rest

/-- A room that is not the first one of its list in a group. -/
def LaterRoom (t : Token) (own : List Token) : Prop :=
  own = [t] ∧ t.isWord ∧ t.isOneOf conditionStarters = false

namespace Behind

variable {first : Token} {rooms : List Token}

theorem not_starters (h : Behind LaterRoom rooms ts) :
    ∀ t ∈ rooms, t.isOneOf conditionStarters = false := by
  induction h with
  | nil => simp
  | cons _ h _ ih => exact List.forall_mem_cons.mpr ⟨h.2.2, ih⟩

theorem filter_rooms (h : Behind LaterRoom rooms ts) :
    ts.filter (!·.isMark .comma) = rooms := by
  induction h with
  | nil => rfl
  | cons hc h _ ih =>
      obtain ⟨rfl, hword, -⟩ := h
      simpa [hc, Token.isMark_of_isWord hword] using ih

/-- The rooms of a list, the first one with them, are its tokens without the commas. -/
theorem filter_list (h : Behind LaterRoom rooms ts) (hw : first.isWord) :
    (first :: ts).filter (!·.isMark .comma) = first :: rooms := by
  rw [List.filter_cons_of_pos (by simp [Token.isMark_of_isWord hw]), h.filter_rooms]

theorem matched_rooms (h : Behind LaterRoom rooms ts) : Matched ts := by
  induction h with
  | nil => exact .nil
  | @cons t _ comma _ rest hc h _ ih =>
      obtain ⟨rfl, hword, -⟩ := h
      have hcomma : Matched [comma] :=
        .token (Token.isMark_of_isMark hc (by decide)) (Token.isMark_of_isMark hc (by decide))
      have hroom : Matched [t] :=
        .token (Token.isMark_of_isWord hword) (Token.isMark_of_isWord hword)
      exact hcomma.append (hroom.append ih)

/-- The commas in front of rooms lead to no member. -/
theorem uncut_rooms (h : Behind LaterRoom rooms ts) : Uncut 0 ts := by
  induction h with
  | nil => exact .nil
  | @cons t _ comma _ rest hc h _ ih =>
      obtain ⟨rfl, hword, hstarter⟩ := h
      have hroom : Uncut 0 ([t] ++ rest) :=
        Uncut.append (.token (Token.isMark_of_isWord hword) (Token.isMark_of_isWord hword)
          (.inl (Token.isMark_of_isWord hword))) ih
      intro more
      have hsep : separates 0 comma ([t] ++ rest ++ more) = false := by
        simp [separates, startsCondition, hstarter]
      rw [List.cons_append, cut_of_not_separates hsep, parensAfter_comma hc, hroom,
        List.modifyHead_modifyHead]
      rfl

/-- Each comma behind the first room stands between two rooms. -/
theorem between_rooms (h : Behind LaterRoom rooms ts) (hts : ts = lead ++ comma :: tail)
    (hcomma : comma.isMark .comma) : Between [first :: rooms] (first :: lead) tail := by
  induction h generalizing first lead with
  | nil => simp at hts
  | @cons t rooms _ own rest hc h hmore ih =>
      obtain ⟨rfl, hword, -⟩ := h
      rw [List.singleton_append] at hts
      rcases List.append_eq_cons_iff.mp hts.symm with ⟨rfl, heq⟩ | ⟨lead', rfl, hroom⟩
      · cases heq
        exact ⟨_, List.mem_singleton_self _, first, t, rfl, rfl, [], rooms, rfl⟩
      rcases List.append_eq_cons_iff.mp hroom.symm with ⟨-, heq⟩ | ⟨lead, rfl, hrest⟩
      · cases heq
        simp [Token.isMark_of_isWord hword] at hcomma
      obtain ⟨_, hmem, a, b, ha, hb, hinfix⟩ : Between [t :: rooms] (t :: lead) tail := ih hrest
      obtain rfl := List.mem_singleton.mp hmem
      exact ⟨_, List.mem_singleton_self _, a, b, by simpa using ha, hb,
        hinfix.trans (List.suffix_cons _ _).isInfix⟩

end Behind

/-! ## Members -/

/-- What the tokens of a member of a group and its room lists have to do with one another. -/
structure Member (lists : List (List Token)) (own : List Token) : Prop where
  starts : startsCondition own
  matched : Matched own
  uncut : Uncut 0 own
  told : lists = listsIn own
  later : ∀ rooms ∈ lists, ∀ t ∈ rooms.tail, t.isOneOf conditionStarters = false
  between : ∀ {lead comma tail}, own = lead ++ comma :: tail → comma.isMark .comma →
    lead.foldl parensAfter 0 = 0 → Between lists lead tail

/-- A member without a room list. -/
theorem Member.of_commaless (h : Commaless own) (hs : startsCondition own) (hl : listsIn own = []) :
    Member [] own where
  starts := hs
  matched := h.matched
  uncut := h.uncut
  told := hl.symm
  later := by simp
  between hown hcomma hlevel := (h.level_ne_zero hown hcomma hlevel).elim

/-- A member that ends in a room list. -/
theorem Member.of_rooms {front : List Token} {first : Token} {rooms : List Token}
    (hf : Commaless front) (hw : first.isWord) (hr : Behind LaterRoom rooms rest)
    (hs : startsCondition front) (hl : listsIn (front ++ first :: rest) = [first :: rooms]) :
    Member [first :: rooms] (front ++ first :: rest) where
  starts := startsCondition_append hs
  matched := hf.matched.append <| .append
    (.token (Token.isMark_of_isWord hw) (Token.isMark_of_isWord hw)) hr.matched_rooms
  uncut := hf.uncut.append <| Uncut.append (.token (Token.isMark_of_isWord hw)
    (Token.isMark_of_isWord hw) (.inl (Token.isMark_of_isWord hw))) hr.uncut_rooms
  told := hl.symm
  later := by simpa using hr.not_starters
  between := by
    intro lead comma tail hown hcomma hlevel
    rcases split_cases hown with ⟨mid, hfront, -⟩ | ⟨lead', rfl, hrooms⟩
    · exact (hf.level_ne_zero hfront hcomma hlevel).elim
    rcases List.append_eq_cons_iff.mp hrooms.symm with ⟨-, heq⟩ | ⟨lead, rfl, hrest⟩
    · cases heq
      simp [Token.isMark_of_isWord hw] at hcomma
    obtain ⟨rooms', hmem, a, b, ha, hb, hinfix⟩ : Between [first :: rooms] (first :: lead) tail :=
      hr.between_rooms hrest hcomma
    exact ⟨rooms', hmem, a, b, by simp [List.getLast?_append, ha], hb, hinfix⟩

/-! ## The members of a group -/

section

variable {R : α → List Token → Prop} {lists : α → List (List Token)} {a : α} {as : List α}

/-- Members with commas between them are cut apart there. -/
theorem Behind.cut_members (hR : ∀ a own, R a own → Member (lists a) own) (hmore : Behind R as rest)
    (h : R a own) : List.Forall₂ R (a :: as) (cut 0 (own ++ rest)) := by
  induction hmore generalizing a own with
  | nil =>
      rw [(hR a own h).uncut, cut]
      simpa using h
  | @cons b as comma own' rest hc h' _ ih =>
      have hsep : separates 0 comma (own' ++ rest) := by
        simp [separates, hc, startsCondition_append (hR b own' h').starts]
      rw [(hR a own h).uncut, cut_of_separates hsep, parensAfter_comma hc]
      exact .cons (by simpa using h) (ih h')

theorem Behind.matched_members (hR : ∀ a own, R a own → Member (lists a) own)
    (hmore : Behind R as rest) (h : R a own) : Matched (own ++ rest) := by
  induction hmore generalizing a own with
  | nil => simpa using (hR a own h).matched
  | cons hc h' _ ih =>
      have hcomma : Matched [_] :=
        .token (Token.isMark_of_isMark hc (by decide)) (Token.isMark_of_isMark hc (by decide))
      exact (hR a own h).matched.append (hcomma.append (ih h'))

/-- A comma between members that leads to none of them stands between two rooms of one. -/
theorem Behind.between_members (hR : ∀ a own, R a own → Member (lists a) own)
    (hmore : Behind R as rest) (h : R a own) (hown : own ++ rest = lead ++ comma :: tail)
    (hcomma : comma.isMark .comma) (hlevel : lead.foldl parensAfter 0 = 0)
    (htail : startsCondition tail = false) : ∃ b ∈ a :: as, Between (lists b) lead tail := by
  induction hmore generalizing a own lead with
  | nil =>
      rw [List.append_nil] at hown
      exact ⟨a, List.mem_cons_self, (hR a own h).between hown hcomma hlevel⟩
  | @cons b as comma' own' rest hc h' hmore ih =>
      rcases split_cases hown with ⟨mid, rfl, rfl⟩ | ⟨lead', rfl, hbehind⟩
      · obtain ⟨rooms, hmem, x, y, hx, hy, hinfix⟩ := (hR a _ h).between rfl hcomma hlevel
        exact ⟨a, List.mem_cons_self, rooms, hmem, x, y, hx, by simp [hy], hinfix⟩
      · rw [List.foldl_append, (hR a own h).matched.level] at hlevel
        rcases List.append_eq_cons_iff.mp hbehind.symm with ⟨-, heq⟩ | ⟨lead, rfl, hrest⟩
        · cases heq
          simp [startsCondition_append (hR b own' h').starts] at htail
        · rw [List.foldl_cons, parensAfter_comma hc] at hlevel
          obtain ⟨b', hb', rooms, hmem, x, y, hx, hy, hinfix⟩ := ih h' hrest hlevel
          exact ⟨b', List.mem_cons_of_mem _ hb', rooms, hmem, x, y,
            by simp [List.getLast?_append, List.getLast?_cons, hx], hy, hinfix⟩

/-- The items of a row are made of parts of it. -/
theorem Row.exists_own (h : Row R R as ts) (ha : a ∈ as) : ∃ own, own <:+: ts ∧ R a own := by
  obtain ⟨b, more, own, rest, rfl, rfl, hb, hmore⟩ := h
  induction hmore generalizing b own with
  | nil =>
      obtain rfl := List.mem_singleton.mp ha
      exact ⟨own, (List.prefix_append own []).isInfix, hb⟩
  | @cons d ds comma own' rest hc hd hmore ih =>
      rcases List.mem_cons.mp ha with rfl | ha
      · exact ⟨own, (List.prefix_append own _).isInfix, hb⟩
      · obtain ⟨found, hfound, hR⟩ := ih d own' ha hd
        have hbehind : own' ++ rest <:+ own ++ comma :: (own' ++ rest) :=
          ⟨own ++ [comma], by simp⟩
        exact ⟨found, hfound.trans hbehind.isInfix, hR⟩

theorem Row.mono {R' : α → List Token → Prop} (h : Row R R as ts) (hR : ∀ a own, R a own → R' a own) :
    Row R' R' as ts := by
  obtain ⟨b, more, own, rest, rfl, rfl, hb, hmore⟩ := h
  refine ⟨b, more, own, rest, rfl, rfl, hR b own hb, ?_⟩
  clear hb
  induction hmore with
  | nil => exact .nil
  | cons hc h _ ih => exact .cons hc (hR _ _ h) ih

end

end Grammar

end Storyworld
