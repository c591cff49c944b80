import Storyworld.Proofs.Spelling.Room
import Storyworld.Proofs.Spelling.Reads

namespace Storyworld

/-! The parentheses around the conditions of a general overlay may be left out. What tells the kinds
of overlays apart looks up to three words ahead, where a name may be any word; only one name is
taken for something else. -/

/-! ## Overlays in tokens -/

/-- Tokens that spell a mood. A bare word that is not built in is one the author made up. -/
inductive Mood.SpelledBy : Mood → List Token → Prop where
  | builtin {mood : BuiltinMood} {s : Span} : SpelledBy (.builtin mood) [.reserved mood.word s]
  | bare {t : Token} (ht : t.IsId) (hnew : BuiltinMood.ofWord? t.text = none) :
      SpelledBy (.custom ⟨t.text⟩) [t]
  | custom {s : Span} {t : Token} (ht : t.IsId) :
      SpelledBy (.custom ⟨t.text⟩) [.reserved "custom" s, t]
  | enclosed {s s' s'' : Span} {text text' : String} {t : Token} (ht : t.IsId) :
      SpelledBy (.custom ⟨t.text⟩)
        [.reserved "custom" s, ⟨.mark .openParen, s', text⟩, t, ⟨.mark .closeParen, s'', text'⟩]

namespace Overlay

/-- Tokens that spell a condition of a general overlay. -/
inductive Condition.SpelledBy : Overlay.Condition → List Token → Prop where
  | flagSet {s s' : Span} {t : Token} (ht : t.IsId) :
      SpelledBy (.flagSet ⟨t.text⟩) [.reserved "flag" s, .reserved "set" s', t]
  | flagUnset {s s' : Span} {t : Token} (ht : t.IsId) :
      SpelledBy (.flagUnset ⟨t.text⟩) [.reserved "flag" s, .reserved "unset" s', t]
  | flagComplete {s s' : Span} {t : Token} (ht : t.IsId) :
      SpelledBy (.flagComplete ⟨t.text⟩) [.reserved "flag" s, .reserved "complete" s', t]
  | itemPresent {s s' : Span} {t : Token} (ht : t.IsId) :
      SpelledBy (.itemPresent ⟨t.text⟩) [.reserved "item" s, .reserved "present" s', t]
  | itemAbsent {s s' : Span} {t : Token} (ht : t.IsId) :
      SpelledBy (.itemAbsent ⟨t.text⟩) [.reserved "item" s, .reserved "absent" s', t]
  | playerHasItem {s s' s'' : Span} {t : Token} (ht : t.IsId) :
      SpelledBy (.playerHasItem ⟨t.text⟩)
        [.reserved "player" s, .reserved "has" s', .reserved "item" s'', t]
  | playerMissingItem {s s' s'' : Span} {t : Token} (ht : t.IsId) :
      SpelledBy (.playerMissingItem ⟨t.text⟩)
        [.reserved "player" s, .reserved "missing" s', .reserved "item" s'', t]
  | npcPresent {s s' : Span} {t : Token} (ht : t.IsId) :
      SpelledBy (.npcPresent ⟨t.text⟩) [.reserved "npc" s, .reserved "present" s', t]
  | npcAbsent {s s' : Span} {t : Token} (ht : t.IsId) :
      SpelledBy (.npcAbsent ⟨t.text⟩) [.reserved "npc" s, .reserved "absent" s', t]
  | npcInState {state : Mood} {s s' s'' : Span} {t : Token} {ts : List Token} (ht : t.IsId)
      (hts : state.SpelledBy ts) :
      SpelledBy (.npcInState ⟨t.text⟩ state)
        (.reserved "npc" s :: .reserved "in" s' :: .reserved "state" s'' :: t :: ts)
  | itemInRoom {s s' s'' : Span} {t u : Token} (ht : t.IsId) (hu : u.IsId) :
      SpelledBy (.itemInRoom ⟨t.text⟩ ⟨u.text⟩)
        [.reserved "item" s, .reserved "in" s', .reserved "room" s'', t, u]

/-- Tokens that spell one or more conditions, with a comma between two of them. -/
inductive Condition.ListedBy : List Overlay.Condition → List Token → Prop where
  | one {x : Overlay.Condition} {ts : List Token} (h : x.SpelledBy ts) : ListedBy [x] ts
  | more {x : Overlay.Condition} {xs : List Overlay.Condition} {ts us : List Token} {s : Span}
      {text : String} (h : x.SpelledBy ts) (hmore : ListedBy xs us) :
      ListedBy (x :: xs) (ts ++ ⟨.mark .comma, s, text⟩ :: us)

/-- Tokens that spell a general overlay, its conditions in parentheses or without. -/
def GeneralBy (inParens : Bool) (conditions : List Overlay.Condition) (text : String)
    (ts : List Token) : Prop :=
  ∃ opening list closing, ts = opening ++ list ++ closing ∧
    Spelled (.keyword "overlay" :: .keyword "if" :: if inParens then [.mark .openParen] else [])
      opening ∧
    Condition.ListedBy conditions list ∧
    Spelled ((if inParens then [.mark .closeParen] else []) ++
      Piece.braces [.keyword "text", .string text]) closing

end Overlay

/-- Tokens that spell the room `r` with one more overlay, which `own` spells, and the overlays `os`
behind it. -/
def Room.Holds (r : Room) (own : List Token) (os : List Overlay) (ts : List Token) : Prop :=
  ∃ before after, ts = before ++ own ++ after ∧
    Spelled (.keyword "room" :: .word r.id.name :: .mark .openBrace :: r.body) before ∧
    Spelled (os.flatMap Overlay.pieces ++ [.mark .closeBrace]) after

namespace Grammar

open Shape

variable {c : Context} {K : List Token → Prop} {ts us : List Token}

/-! ## Conditions -/

/-- What follows is no name that could belong to a mood. -/
def EndsMood : List Token → Prop :=
  Without fun t => t.isWord || t.isMark .openParen

theorem mood_reads {m : Mood} (h : m.SpelledBy ts) :
    Reads c mood ts EndsMood (lenientMood · = .ok m) := by
  rw [mood_eq]
  cases h with
  | @builtin mood =>
      refine .look (b := false) (fun rest _ => ?_) ?_
      · cases mood <;> rfl
      · exact .node <| .word rfl <| .done fun _ => by cases mood <;> rfl
  | @bare t ht hnew =>
      refine .look (b := false) (fun rest hrest => ?_) ?_
      · have hnext : rest[0]?.any (fun t => t.isWord || t.isMark .openParen) = false := hrest
        simp [hnext]
      · refine .node <| .word ht.isWord <| .done fun _ => Gets.all_parts ?_
        refine .bind (fun _ => rfl) fun _ => ?_
        simp only [hnew]
        rfl
  | custom ht =>
      refine .look (b := true) (fun rest _ => ?_) ?_
      · simp [Token.reserved, Token.isKeyword, ht.isWord]
      · refine .node <| .keyword <| .notEatMark (Token.isMark_of_isWord ht.isWord) ?_
        exact .word ht.isWord <| .done fun _ => rfl
  | enclosed ht =>
      refine .look (b := true) (fun rest _ => ?_) ?_
      · simp [Token.reserved, Token.isKeyword, Token.isMark]
      · refine .node <| .keyword <| .eatMark rfl <| .word ht.isWord <| .mark rfl ?_
        exact .done fun _ => rfl

theorem overlayCondition_reads {x : Overlay.Condition} (h : x.SpelledBy ts) :
    Reads c Grammar.overlayCondition ts EndsMood (IsOverlayCondition x) := by
  refine .nodeBy ?_
  cases h with
  | flagSet ht | flagUnset ht | flagComplete ht =>
      exact .eatKeyword <| .oneOf rfl <| .word ht.isWord <| .done fun _ => ⟨nofun, rfl⟩
  | itemPresent ht | itemAbsent ht =>
      refine .otherKeyword (by decide) <| .eatKeyword <| .otherKeyword (by decide) ?_
      exact .oneOf rfl <| .word ht.isWord <| .done fun _ => ⟨nofun, rfl⟩
  | playerHasItem ht | playerMissingItem ht =>
      iterate 2 refine .otherKeyword (by decide) ?_
      refine .eatKeyword <| .oneOf rfl <| .keyword ?_
      exact .word ht.isWord <| .done fun _ => ⟨nofun, rfl⟩
  | npcPresent ht | npcAbsent ht =>
      iterate 3 refine .otherKeyword (by decide) ?_
      refine .eatKeyword <| .otherKeyword (by decide) <| .oneOf rfl ?_
      exact .word ht.isWord <| .done fun _ => ⟨nofun, rfl⟩
  | npcInState ht hts =>
      iterate 3 refine .otherKeyword (by decide) ?_
      refine .eatKeyword <| .eatKeyword <| .keyword <| .word ht.isWord ?_
      refine .map <| (mood_reads hts).mono fun n hn span => ⟨nofun, Gets.all_parts ?_⟩
      exact .bind (fun _ => rfl) <| .bind (fun _ => rfl) <| .lift hn fun _ => rfl
  | itemInRoom ht hu =>
      refine .otherKeyword (by decide) <| .eatKeyword <| .eatKeyword <| .keyword ?_
      exact .word ht.isWord <| .word hu.isWord <| .done fun _ => ⟨nofun, rfl⟩

/-- What follows is neither a comma nor a name that could belong to a mood. -/
def EndsList : List Token → Prop :=
  Without fun t => t.isMark .comma || t.isWord || t.isMark .openParen

theorem EndsList.endsMood {rest : List Token} (h : EndsList rest) : EndsMood rest := by
  cases rest with
  | nil => rfl
  | cons t rest =>
      have ht : (t.isMark .comma || t.isWord || t.isMark .openParen) = false := by
        simpa [EndsList, Without] using h
      simp_all [EndsMood, Without]

theorem endsMood_comma {span : Span} {text : String} {rest : List Token} :
    EndsMood (⟨.mark .comma, span, text⟩ :: rest) := by
  rfl

/-- A step of the list of conditions. -/
def conditionStep : Parse (Option Node) := do
  if ← eatWhen fun r => r[0]?.any (·.isMark .comma) && true then some <$> Grammar.overlayCondition
  else return none

theorem conditionStep_reads {x : Overlay.Condition} {span : Span} {text : String}
    (h : x.SpelledBy ts) :
    Reads c conditionStep (⟨.mark .comma, span, text⟩ :: ts) EndsMood fun n? =>
      ∃ n, n? = some n ∧ IsOverlayCondition x n := by
  simp only [conditionStep, Bool.and_true]
  exact .eat rfl (by simp [Token.isMark]) <| .map <| (overlayCondition_reads h).mono fun n hn =>
    ⟨n, rfl, hn⟩

theorem conditionStep_stop {s : State} (h : EndsList s.rest) : conditionStep c s = .ok none s := by
  have hcomma : s.rest[0]?.any (·.isMark .comma) = false := by
    cases hr : s.rest with
    | nil => rfl
    | cons t rest =>
        rw [hr] at h
        simp_all [EndsList, Without]
  rw [conditionStep, run_bind, run_eatWhen, hcomma]
  rfl

/-- The conditions behind a comma, round by round. -/
theorem conditions_rounds {xs : List Overlay.Condition} (h : Overlay.Condition.ListedBy xs us) :
    ∀ {s : State} {rest : List Token} {span : Span} {text : String},
      s.rest = ⟨.mark .comma, span, text⟩ :: us ++ rest → EndsList rest →
      ∃ ns s', Rounds c conditionStep s ns s' ∧ List.Forall₂ IsOverlayCondition xs ns ∧
        s.Past rest s' := by
  induction h with
  | one h =>
      intro s rest span text hs hrest
      obtain ⟨_, s', hrun, ⟨n, rfl, hn⟩, hpast⟩ := conditionStep_reads h hs hrest.endsMood
      have hstop : conditionStep c s' = .ok none s' := conditionStep_stop (by rwa [hpast.rest])
      exact ⟨[n], s', .round hrun (hpast.length_lt hs) (.stop hstop), .cons hn .nil, hpast⟩
  | more h hmore ih =>
      intro s rest span text hs hrest
      rw [List.cons_append, List.append_assoc, ← List.cons_append] at hs
      obtain ⟨_, s₁, hrun, ⟨n, rfl, hn⟩, hpast⟩ := conditionStep_reads h hs endsMood_comma
      obtain ⟨ns, s', hrounds, hns, hpast'⟩ := ih hpast.rest hrest
      exact ⟨n :: ns, s', .round hrun (hpast.length_lt hs) hrounds, .cons hn hns,
        hpast.trans hpast'⟩

theorem conditions_reads {xs : List Overlay.Condition} (h : Overlay.Condition.ListedBy xs ts) :
    Reads c (commaSeparated Grammar.overlayCondition (return true)) ts EndsList
      (List.Forall₂ IsOverlayCondition xs) := by
  have heq : commaSeparated Grammar.overlayCondition (return true) = do
      let first ← Grammar.overlayCondition
      let more ← many conditionStep
      return first :: more := by
    rw [commaSeparated]
    exact congrArg (fun step => do
      let first ← Grammar.overlayCondition
      let more ← many step
      return first :: more) (Composed.commaStep_eq _ fun _ => true)
  rw [heq]
  cases h with
  | one h =>
      rw [← List.append_nil ts]
      refine (overlayCondition_reads h).bind (fun n hn => ?_) fun rest hrest => hrest.endsMood
      intro s rest hs hrest
      have hstop : conditionStep c s = .ok none s := conditionStep_stop (by rwa [hs])
      refine ⟨[n], s, ?_, .cons hn .nil, hs, rfl, rfl⟩
      rw [run_bind, (Rounds.stop hstop).run_many]
      rfl
  | more h hmore =>
      refine (overlayCondition_reads h).bind (fun n hn => ?_) fun rest _ => endsMood_comma
      intro s rest hs hrest
      obtain ⟨ns, s', hrounds, hns, hpast⟩ := conditions_rounds hmore hs hrest
      refine ⟨n :: ns, s', ?_, .cons hn hns, hpast⟩
      rw [run_bind, hrounds.run_many]
      rfl

/-! ## Overlays -/

/-- What the other kinds of overlays are told by is not there. -/
structure LooksGeneral (r : List Token) : Prop where
  flag : (r[0]?.any (·.isKeyword "flag") && r[2]?.any (·.isMark .openBrace)) = false
  presence : (r[0]?.any (·.isOneOf ["item", "npc"]) && r[2]?.any (·.isMark .openBrace)) = false
  states : (r[0]?.any (·.isKeyword "npc") && r[2]?.any (·.isKeyword "here") &&
    r[3]?.any (·.isMark .openBrace)) = false

theorem LooksGeneral.of_noBrace {r : List Token} (h : r[2]?.any (·.isMark .openBrace) = false)
    (hstates : (r[0]?.any (·.isKeyword "npc") && r[2]?.any (·.isKeyword "here") &&
      r[3]?.any (·.isMark .openBrace)) = false) : LooksGeneral r :=
  ⟨by rw [h, Bool.and_false], by rw [h, Bool.and_false], hstates⟩

/-- A condition on an npc called `here` looks like the beginning of an overlay on moods. -/
def NamesHere (x : Overlay.Condition) : Prop :=
  x = .npcPresent ⟨"here"⟩ ∨ x = .npcAbsent ⟨"here"⟩

theorem looksGeneral_of_spelledBy {x : Overlay.Condition} {rest : List Token} (h : x.SpelledBy ts)
    (hrest : NamesHere x → rest[0]?.any (·.isMark .openBrace) = false) :
    LooksGeneral (ts ++ rest) := by
  have hname {t : Token} (ht : t.IsId) : t.isMark .openBrace = false :=
    Token.isMark_of_isWord ht.isWord
  -- Only behind `npc` can there be a name at the third place that is mistaken.
  have hhere {t : Token} (ht : t.IsId) (hk : t.isKeyword "here") : t.text = "here" :=
    ht.isSpelled _ (Token.isKeyword_iff.mp hk) (by decide)
  cases h with
  | npcPresent ht | npcAbsent ht =>
      refine .of_noBrace (by simp [hname ht]) ?_
      rw [Bool.eq_false_iff]
      intro hall
      simp only [List.cons_append, List.nil_append, List.getElem?_cons_succ, List.getElem?_cons_zero,
        Option.any_some, Bool.and_eq_true] at hall
      have hno := hrest (by simp [NamesHere, hhere ht hall.1.2])
      simp [hall.2] at hno
  | npcInState ht hts => exact .of_noBrace rfl rfl
  | playerHasItem ht | playerMissingItem ht => exact .of_noBrace rfl rfl
  | itemInRoom ht hu => exact .of_noBrace rfl rfl
  | flagSet ht | flagUnset ht | flagComplete ht | itemPresent ht | itemAbsent ht =>
      exact .of_noBrace (by simp [hname ht]) rfl

/-- Conditions without parentheses look like what they are, unless it is a single one that names
`here`. -/
theorem looksGeneral_of_listedBy {conditions : List Overlay.Condition} {rest : List Token}
    (h : Overlay.Condition.ListedBy conditions ts)
    (hhere : ∀ x, conditions = [x] → ¬NamesHere x) : LooksGeneral (ts ++ rest) := by
  cases h with
  | one h => exact looksGeneral_of_spelledBy h fun hx => absurd hx (hhere _ rfl)
  | more h hmore =>
      rw [List.append_assoc]
      exact looksGeneral_of_spelledBy h fun _ => rfl

/-- Conditions begin with a word. -/
theorem begins_conditions {conditions : List Overlay.Condition}
    (h : Overlay.Condition.ListedBy conditions ts) : ∃ w span rest, ts = .reserved w span :: rest := by
  cases h with
  | one h | more h => cases h <;> exact ⟨_, _, _, rfl⟩

variable {conditions : List Overlay.Condition} {text : String}

theorem endsList_brace {p : Piece} {ps : List Piece} {rest : List Token}
    (h : Spelled (p :: ps) us) (hp : p = .mark .openBrace ∨ p = .mark .closeParen) :
    EndsList (us ++ rest) := by
  obtain ⟨t, vs, rfl, ht, -⟩ := h.cons_inv
  rcases hp with rfl | rfl <;> cases ht <;> rfl

theorem generalOverlay_reads {inParens : Bool} {before list behind : List Token}
    (hbefore : Spelled (if inParens then [.mark .openParen] else []) before)
    (hlist : Overlay.Condition.ListedBy conditions list)
    (hbehind : Spelled ((if inParens then [.mark .closeParen] else []) ++
      Piece.braces [.keyword "text", .string text]) behind) :
    Reads c generalOverlay (before ++ list ++ behind) K fun ns =>
      Turns generalPart (· = ([], none)) ns (· = (conditions, some text)) := by
  have hblock : Takes c (blockOf ["text"] (keywordThenString .overlayText "text"))
      (Piece.braces [.keyword "text", .string text]) K
      (Turns generalPart (· = (conditions, none)) · (· = (conditions, some text))) :=
    overlayText_takes
  have htexts {ns : List Node} (hns : List.Forall₂ IsOverlayCondition conditions ns) {vs}
      (hvs : Spelled (Piece.braces [.keyword "text", .string text]) vs) :
      Reads c (do
        let texts ← blockOf ["text"] (keywordThenString .overlayText "text")
        return ns ++ texts) vs K fun ns =>
          Turns generalPart (· = ([], none)) ns (· = (conditions, some text)) :=
    .map <| (hblock.reads hvs).mono fun ms hms => (conditions_turn hns).append hms
  cases inParens with
  | true =>
      obtain ⟨_, _, rfl, ⟨span, text⟩, hnil⟩ := hbefore.cons_inv
      cases hnil
      refine .eatMark rfl <| (conditions_reads hlist).bind (fun ns hns => ?_) fun rest _ =>
        endsList_brace hbehind (.inr rfl)
      obtain ⟨_, vs, rfl, ⟨span', text'⟩, hvs⟩ := hbehind.cons_inv
      exact .mark rfl <| htexts hns hvs
  | false =>
      cases hbefore
      refine .leave (fun rest _ => ?_) <| (conditions_reads hlist).bind (fun ns hns => ?_)
        fun rest _ => endsList_brace hbehind (.inl rfl)
      · obtain ⟨w, span, more, rfl⟩ := begins_conditions hlist
        rfl
      · exact htexts hns hbehind

/-- A general overlay is read as such, its conditions in parentheses or without. -/
theorem overlay_reads {inParens : Bool} {place : Span}
    (h : Overlay.GeneralBy inParens conditions text ts)
    (hhere : inParens = false → ∀ x, conditions = [x] → ¬NamesHere x) :
    Reads c Grammar.overlay ts K (IsOverlay ⟨.conditional conditions text, place⟩) := by
  obtain ⟨opening, list, closing, rfl, hopening, hlist, hclosing⟩ := h
  obtain ⟨t, _, rfl, ht, hopening⟩ := hopening.cons_inv
  obtain ⟨u, before, rfl, hu, hbefore⟩ := hopening.cons_inv
  cases ht
  cases hu
  rw [overlay_eq]
  refine .nodeBy <| .keyword <| .keyword ?_
  have hlooks (rest : List Token) : LooksGeneral (before ++ list ++ closing ++ rest) := by
    cases inParens with
    | true =>
        obtain ⟨_, _, rfl, ⟨span, text⟩, -⟩ := hbefore.cons_inv
        exact ⟨rfl, rfl, rfl⟩
    | false =>
        cases hbefore
        rw [List.nil_append, List.append_assoc]
        exact looksGeneral_of_listedBy hlist (hhere rfl)
  refine .look (b := false) (fun rest _ => (hlooks rest).flag) <|
    .look (b := false) (fun rest _ => (hlooks rest).presence) <|
    .look (b := false) (fun rest _ => (hlooks rest).states) ?_
  exact .map <| (generalOverlay_reads hbefore hlist hclosing).mono fun ns hns span =>
    isOverlay_of_general hns

/-! ## Rooms -/

variable {r : Room} {o : Overlay} {os : List Overlay} {limit : Nat} {own : List Token}

/-- The overlay as a round of the statements of a room. -/
theorem overlay_round {depth : Nat} {s : State} {rest : List Token} {span : Span}
    (hown : Reads c Grammar.overlay (.reserved "overlay" span :: ts) K (IsOverlay o))
    (hdepth : depth ≤ s.depth) (hs : s.rest = .reserved "overlay" span :: ts ++ rest)
    (hrest : K rest) :
    ∃ n s', round depth roomStarters (starting roomStarters roomStatement) c s = .ok (some [n]) s' ∧
      IsOverlay o n ∧ s.Past rest s' := by
  have hstatement : Reads c (starting roomStarters roomStatement) (.reserved "overlay" span :: ts) K
      (IsOverlay o) := by
    refine .atOneOf (b := true) rfl <| .atKeyword (b := false) rfl ?_
    refine .atOneOf (b := false) rfl <| .atKeyword (b := false) rfl ?_
    exact .atKeyword (b := false) rfl hown
  obtain ⟨n, s', hrun, hn, hpast⟩ := hstatement hs hrest
  exact ⟨n, s', (RoundDerivation.reads (by omega) hs rfl hrun).execution, hn, hpast⟩

/-- A room is read with an overlay among its statements that is read in some other spelling. -/
theorem room_reads {span : Span} (hr : r.Writable) (hos : ∀ o ∈ os, o.kind.Writable)
    (hown : Reads c Grammar.overlay (.reserved "overlay" span :: own) Anything (IsOverlay o))
    (h : r.Holds (.reserved "overlay" span :: own) os ts) :
    Reads c Grammar.room ts K fun n => n.rule = .roomDef ∧
      Says limit (.room { r with overlays := r.overlays ++ o :: os }) n := by
  obtain ⟨before, after, rfl, hbefore, hafter⟩ := h
  obtain ⟨t, _, rfl, ht, hbefore⟩ := hbefore.cons_inv
  obtain ⟨u, _, rfl, hu, hbefore⟩ := hbefore.cons_inv
  obtain ⟨v, body, rfl, hv, hbody⟩ := hbefore.cons_inv
  obtain ⟨more, _, rfl, hmore, hend⟩ := hafter.append_inv
  obtain ⟨w, _, rfl, hw, hnil⟩ := hend.cons_inv
  cases hnil
  cases ht
  cases hu
  have hopen : v.isMark .openBrace := by cases hv; rfl
  have hclose : w.isMark .closeBrace := by cases hw; rfl
  refine .node <| .keyword <| .word hr.id.isWord <| .map ?_
  intro s rest hs _
  replace hs : s.rest = v :: (body ++ (.reserved "overlay" span :: own ++ (more ++ w :: rest))) := by
    rw [hs]
    simp
  have hadvance := congrArg State.rest (advance_of_cons hs)
  have hend : EndsIn roomStarters (w :: rest) := by simp [EndsIn, hclose]
  -- The statements in front of the overlay, the overlay, and the overlays behind it.
  obtain ⟨nss, s₁, hpast, hnss, hrounds⟩ :=
    (roomBody_clauses (c := c) hr).series (s := s.advance) hbody hadvance rfl
  have hle : s.advance.depth ≤ s₁.depth := by rw [hpast.depth]
  obtain ⟨n, s₂, hrun, hn, hpast'⟩ := overlay_round hown hle hpast.rest trivial
  obtain ⟨mss, s₃, hpast'', hmss, hrounds'⟩ :=
    (overlays_clauses (c := c) hos).series hmore hpast'.rest hend
  have hdepth : s₂.depth = s.advance.depth := hpast'.depth.trans hpast.depth
  rw [hdepth] at hrounds'
  have hall (more : List (List Node)) (s' : State)
      (hmore : Rounds c (round s.advance.depth roomStarters (starting roomStarters roomStatement)) s₃
        more s') :
      Rounds c (round s.advance.depth roomStarters (starting roomStarters roomStatement)) s.advance
        (nss ++ [n] :: mss ++ more) s' := by
    rw [List.append_assoc]
    exact hrounds _ _ (.round hrun (hpast'.length_lt hpast.rest) (hrounds' _ _ hmore))
  obtain ⟨s', hblock, hbehind⟩ :=
    run_block_of_rounds hs hopen hclose ((hpast.trans hpast').trans hpast'') hall
  refine ⟨_, s', hblock, fun place => ?_, hbehind⟩
  rw [List.flatten_append, List.flatten_cons]
  obtain ⟨r', hr', htells⟩ := hnss
  obtain ⟨os', hos', hbuilt⟩ := SaysUpTo.exists_values (.cons hn hmss)
  refine ⟨rfl, says_room ?_ (tells_overlays htells hbuilt)⟩
  simp_all [Room.withoutSpans]

end Grammar

end Storyworld
