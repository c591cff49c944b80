import Storyworld.Proofs.Grammar.Offers

namespace Storyworld.Grammar

/-! What the parsers of rooms offer, they take. The form of an overlay is told by up to four tokens,
so that a token put in behind two or three others can turn one form into another one. -/

variable {α β : Type} {c : Context} {s s' : State} {m : Repair} {X : Prop} {tk : Bool} {n k : Nat}
  {p : Parse α} {f : α → Parse β} {es : List String} {A B : Token → Bool}

namespace Opening

/-! ## Exits -/

theorem roomSet : Opening m (·.isKeyword "let") X Grammar.roomSet := by
  refine .behind rfl (.bind (.keyword rfl) fun _ => .bind (.word rfl) fun name =>
    .bind .mark fun _ => ?_)
  exact .bind (.idList rfl) fun rooms => .pure _

theorem exitOption : Opening m (·.isOneOf exitOptionStarters) X Grammar.exitOption := by
  refine .accept (.told (.behind rfl (.map (.idList rfl))) (.told (.behind rfl (.map (.idList rfl)))
    (.told (.keywordThenString rfl) (.told (.behind rfl (.pure [])) (.behind rfl
      (.pure [])))))) fun t ht => ?_
  simpa [Token.isOneOf, exitOptionStarters] using ht

theorem exitOptions : Opening m (·.isMark .openBrace) X Grammar.exitOptions := by
  refine .node (.map (.map (.blockOf rfl ?_)))
  exact .bind .exitOption fun option => .bind (.map .eatMark) fun _ => .pure option

theorem exit : Opening m (·.isKeyword "exit") X Grammar.exit := by
  refine .behind rfl (.bind (.label rfl) fun direction => .bind .mark fun _ =>
    .bind (.word rfl) fun target => ?_)
  exact .told (.map .exitOptions) (.pure _)

theorem moodLines : Opening m (·.isMark .openBrace) X Grammar.moodLines := by
  refine .blockOf rfl (.accept ?_ fun _ => Token.isWord_of_isOneOf)
  exact .node (.map (.bind .mood fun state => .bind .string fun text => .pure _))

theorem textPair {first second : String} {r r' : Rule}
    (h : Token.isReserved first) (h' : Token.isReserved second) :
    Opening m (·.isMark .openBrace) X (Grammar.textPair first second r r') := by
  refine .blockOf (by simp [h, h']) (.accept (.told (.keywordThenString h) (.keywordThenString h'))
    fun t ht => ?_)
  simpa [Token.isOneOf] using ht

end Opening

/-! ## What a parser does not offer -/

/-- A parser that never offers one of the entries `es`. -/
def Withholds (es : List String) (p : Parse α) : Prop :=
  ∀ ⦃c s fault s'⦄, p c s = .error fault s' → ∀ e ∈ fault.cause.expected, e ∉ es

namespace Withholds

theorem bind (hp : Withholds es p) (hf : ∀ a, Withholds es (f a)) : Withholds es (p >>= f) := by
  intro c s fault s' h
  rw [run_bind] at h
  cases hps : p c s with
  | ok a s₁ =>
      rw [hps] at h
      exact hf a h
  | error fault' s₁ =>
      rw [hps] at h
      cases h
      exact hp hps

theorem pure (a : α) : Withholds es (Pure.pure a : Parse α) :=
  fun _ _ _ _ h => by cases h

theorem map {g : α → β} (hp : Withholds es p) : Withholds es (g <$> p) :=
  hp.bind fun a => pure (g a)

theorem take {offered : List String} {accept : Token → Bool} (h : ∀ e ∈ offered, e ∉ es) :
    Withholds es (expect offered accept) := by
  intro c s fault s' hrun
  obtain ⟨rfl, -⟩ := expect_error hrun
  rwa [expected_unexpected]

theorem unexpected {offered : List String} (h : ∀ e ∈ offered, e ∉ es) :
    Withholds es (Grammar.unexpected offered : Parse α) := by
  intro c s fault s' hrun
  rw [run_unexpected] at hrun
  cases hrun
  rwa [expected_unexpected]

theorem node {parts : Parse (Rule × List Element)} (hp : Withholds es parts) :
    Withholds es (nodeBy parts) := by
  intro c s fault s' h
  rw [run_nodeBy] at h
  split at h <;> cases h
  exact hp ‹_›

theorem fork {F : List Token → Bool} {q : Parse α} (hp : Withholds es p) (hq : Withholds es q) :
    Withholds es (do if ← looking F then p else q) := by
  intro c s fault s' h
  rw [run_fork] at h
  split at h
  · exact hp h
  · exact hq h

theorem clause {q : Parse α} (hp : Withholds es p) (hq : Withholds es q) :
    Withholds es (do if ← eatWhen (next B) then p else q) := by
  have htake : Withholds es (expect [] B) := .take (by simp)
  rw [clause_eq]
  exact .fork (F := next B) (htake.bind fun _ => hp) hq

end Withholds

theorem withholds_mood : Withholds ["\x7b", "here"] mood := by
  have hword {what : String} (h : what ∉ ["\x7b", "here"]) :
      Withholds ["\x7b", "here"] (word what) :=
    .take fun e he => List.mem_singleton.mp he ▸ h
  rw [mood_pair]
  refine .fork (.node (.map (.bind (.map (.take (by decide))) fun _ => ?_)))
    (.node (.map (.map (hword (by decide)))))
  refine .clause (.bind (hword (by decide)) fun name => ?_) (.map (hword (by decide)))
  exact .bind (.map (.take (by decide))) fun _ => .pure _

theorem withholds_overlayCondition : Withholds ["\x7b", "here"] overlayCondition := by
  have htake {offered : List String} {accept : Token → Bool}
      (h : ∀ e ∈ offered, e ∉ ["\x7b", "here"]) :
      Withholds ["\x7b", "here"] (expect offered accept) := .take h
  refine .node (.clause ?flag (.clause ?item (.clause ?player (.clause ?npc ?none))))
  case none => exact .unexpected (by decide)
  case flag => exact .bind (htake (by decide)) fun which => .map (htake (by decide))
  case item =>
    refine .clause (.bind (.map (htake (by decide))) fun _ => ?_)
      (.bind (htake (by decide)) fun which => .map (htake (by decide)))
    exact .bind (htake (by decide)) fun item => .bind (htake (by decide)) fun room => .pure _
  case player =>
    refine .bind (htake (by decide)) fun which => .bind (.map (htake (by decide))) fun _ => ?_
    exact .map (htake (by decide))
  case npc =>
    refine .clause (.bind (.map (htake (by decide))) fun _ => ?_)
      (.bind (htake (by decide)) fun which => .map (htake (by decide)))
    exact .bind (htake (by decide)) fun npc => .bind withholds_mood fun state => .pure _

/-! ## How many tokens a condition takes -/

theorem Costs.node {parts : Parse (Rule × List Element)} (hp : Costs n parts) :
    Costs n (nodeBy parts) := by
  intro c s a s' h
  rw [run_nodeBy] at h
  split at h <;> cases h
  exact hp c s _ s' ‹_›

theorem Costs.clause {q : Parse α} (hp : Costs n p) (hq : Costs (n + 1) q) :
    Costs (n + 1) (do if ← eatWhen (next B) then p else q) := by
  have htake : Costs (1 + n) (do let _ ← expect [] B; p) := (Costs.one (.take _ _)).bind fun _ => hp
  rw [clause_eq]
  exact .fork (f := next B) (htake.mono (by omega)) hq

theorem costs_overlayCondition : Costs 3 overlayCondition := by
  have hmood : Composed (fun _ => True) (fun _ => True) true true mood _ := .mood
  have hone {ws : List String} : Costs 1 (oneOf ws) := .one (.take _ _)
  have hpair {what : String} {ws : List String} {g : Token → Token → Rule × List Element} :
      Costs 2 (do
        let which ← oneOf ws
        return g which (← word what)) := hone.bind fun _ => Costs.word.map
  refine .node (.clause ?flag (.clause ?item (.clause ?player (.clause ?npc ?none))))
  case flag => exact hpair
  case item =>
    refine .clause (.mono ?_ (by decide : 1 ≤ 3)) hpair
    exact Costs.keyword.bind fun _ => Costs.word.bind fun _ => Costs.word.map
  case player =>
    exact (hone.bind fun _ => Costs.keyword.bind fun _ => Costs.word.map).mono (by decide : 2 ≤ 3)
  case npc =>
    refine .clause (.mono ?_ (by decide : 1 ≤ 3)) hpair
    exact Costs.keyword.bind fun _ => Costs.word.bind fun _ => (Costs.one hmood.advances).map
  case none => exact fun _ _ _ _ h => by rw [run_unexpected] at h; cases h

/-! ## Conditions -/

/-- The words that begin a condition of an overlay. -/
def overlayStarters : List String :=
  ["flag", "item", "player", "npc"]

theorem Opening.overlayCondition :
    Opening m (·.isOneOf overlayStarters) False Grammar.overlayCondition := by
  refine .accept (.node (.clause ?flag (.clause ?item (.clause ?player (.clause ?npc
    (.never (.unexpectedOf rfl ?none))))))) fun t ht => ?told
  case told => simpa [Token.isOneOf, overlayStarters] using ht
  case none => simp [Token.isOneOf, or_assoc]
  case flag => exact .bind (.oneOf rfl) fun which => .map (.word rfl)
  case item =>
    refine .clause ?_ (.bind (.oneOf rfl) fun which => .map (.word rfl))
    exact .bind (.keyword rfl) fun _ => .bind (.word rfl) fun item => .bind (.word rfl) fun room =>
      .pure _
  case player =>
    exact .bind (.oneOf rfl) fun which => .bind (.keyword rfl) fun _ =>
      .map (.word rfl)
  case npc =>
    refine .clause ?_ (.bind (.oneOf rfl) fun which => .map (.word rfl))
    exact .bind (.keyword rfl) fun _ => .bind (.word rfl) fun npc => .bind .mood fun state =>
      .pure _

/-- A condition on an npc goes on with a word. -/
theorem overlayCondition_of_npc (hn : next (·.isKeyword "npc") s.rest)
    (hw : next (·.isWord) s.rest.tail = false) :
    ∃ fault, overlayCondition c s = .error fault s.advance := by
  have heat (w : String) : eatKeyword w = eatWhen (next (·.isKeyword w)) := rfl
  obtain ⟨t, rest, hr, ht⟩ := next_iff.mp hn
  rw [← advance_rest] at hw
  have hother (w : String) (hne : w ≠ "npc") : next (·.isKeyword w) s.rest = false := by
    simp [next, hr, Token.isKeyword, Token.isKeyword_iff.mp ht, hne.symm]
  have hin : next (·.isKeyword "in") s.advance.rest = false :=
    next_eq_false hw fun _ => Token.isWord_of_isKeyword
  have hnone : next (·.isOneOf ["present", "absent", "in"]) s.advance.rest = false :=
    next_eq_false hw fun _ => Token.isWord_of_isOneOf
  refine ⟨s.advance.unexpected c ["present", "absent", "in"], ?_⟩
  rw [overlayCondition, run_nodeBy]
  simp [heat, run_bind, run_eatWhen, hother, hn, hin, oneOf, expect_of_next hnone]

/-! ## Forms told by their first tokens -/

/-- A parser that takes a token and a name first: where the tokens left satisfy `F`, it gets past
`n` of them, or it fails at the second one, which is no name. -/
structure Clears (n : Nat) (F : List Token → Bool) (p : Parse α) : Prop where
  length : ∀ r, F r → n ≤ r.length
  commits : Commits n (fun r => F r && next (·.isWord) r.tail) p
  stops : ∀ c s, F s.rest → next (·.isWord) s.rest.tail = false →
    ∃ fault, p c s = .error fault s.advance

namespace Clears

variable {F G : List Token → Bool} {what : String} {r' : EStateM.Result SyntaxFault State α}

theorem named {p₀ : Parse α} {g : α → Token → Parse β} (hlen : ∀ r, F r → k + 2 ≤ r.length)
    (hp : ∀ c s, F s.rest → ∃ a, p₀ c s = .ok a s.advance) (hg : ∀ a t, Commits k G (g a t))
    (hF : ∀ r, F r → G r.tail.tail) : Clears (k + 2) F (do
      let a ← p₀
      let t ← word what
      g a t) := by
  have hword (c : Context) (s : State) (h : next (·.isWord) s.rest) :
      ∃ t, word what c s = .ok t s.advance := by
    obtain ⟨t, rest, hr, ht⟩ := next_iff.mp h
    exact ⟨t, expect_of_cons hr ht⟩
  have hbehind (a : α) : Commits (k + 1) (fun r => next (·.isWord) r && G r.tail) (do
      let t ← word what
      g a t) :=
    .behind (fun c s hr => hword c s (Bool.and_eq_true_iff.mp hr).1) (hg a)
      fun r hr => (Bool.and_eq_true_iff.mp hr).2
  refine ⟨hlen, ?_, fun c s hr hnot => ?_⟩
  · refine .behind (fun c s hr => hp c s (Bool.and_eq_true_iff.mp hr).1) hbehind fun r hr => ?_
    simp only [Bool.and_eq_true] at hr ⊢
    exact ⟨hr.2, hF r hr.1⟩
  · obtain ⟨a, ha⟩ := hp c s hr
    rw [← advance_rest] at hnot
    refine ⟨s.advance.unexpected c [what], ?_⟩
    rw [run_bind, ha]
    simp only [run_bind, word, expect_of_next hnot]

/-- Such a parser does not end behind its second token and in front of the last one that tells
it. -/
theorem mirrors (h : Clears n F p) (hF : F (m.old s).rest) (hle : 2 ≤ s.rest.length)
    (hlt : s.rest.length < n) : Mirrors m (p m.found (m.old s)) r' := by
  have hlen := h.length _ hF
  have hsplit : (m.old s).rest.length = s.rest.length + m.left.length := List.length_append
  cases hword : next (·.isWord) (m.old s).rest.tail with
  | true =>
      refine .of_short (h.commits (lasting_length _ _) (by simp [hF, hword]) ?_)
      rw [iterate_advance_rest, List.length_drop]
      omega
  | false =>
      obtain ⟨fault, hrun⟩ := h.stops m.found (m.old s) hF hword
      rw [hrun]
      refine .of_early ?_
      rw [advance_rest, List.length_tail]
      omega

end Clears

/-- The test of an overlay told by its first word and the brace behind a name. -/
def braced (A : Token → Bool) (r : List Token) : Bool :=
  r[0]?.any A && r[2]?.any (·.isMark .openBrace)

theorem braced_iff {r : List Token} :
    braced A r ↔ ∃ t u v rest, r = t :: u :: v :: rest ∧ A t ∧ v.isMark .openBrace := by
  match r with
  | [] | [_] | [_, _] => simp [braced]
  | _ :: _ :: _ :: _ => simp [braced]

/-- The test of an overlay on the states of an npc. -/
def stated (r : List Token) : Bool :=
  r[0]?.any (·.isKeyword "npc") && r[2]?.any (·.isKeyword "here") && r[3]?.any (·.isMark .openBrace)

theorem stated_iff {r : List Token} : stated r ↔ ∃ t u v w rest, r = t :: u :: v :: w :: rest ∧
    t.isKeyword "npc" ∧ v.isKeyword "here" ∧ w.isMark .openBrace := by
  match r with
  | [] | [_] | [_, _] | [_, _, _] => simp [stated]
  | _ :: _ :: _ :: _ :: _ => simp [stated, and_assoc]

theorem next_of_braced {r : List Token} (h : braced A r) : next A r := by
  obtain ⟨t, u, v, rest, hr, ht, -⟩ := braced_iff.mp h
  exact next_iff.mpr ⟨t, _, hr, ht⟩

theorem next_of_stated {r : List Token} (h : stated r) : next (·.isKeyword "npc") r := by
  obtain ⟨t, u, v, w, rest, hr, ht, -⟩ := stated_iff.mp h
  exact next_iff.mpr ⟨t, _, hr, ht⟩

/-- The word an overlay on the presence of an item or an npc begins with: whether it is an item. -/
def presenceSubject : Parse Bool := do
  if ← eatKeyword "item" then return true
  else
    keyword "npc"
    return false

theorem presenceOverlay_eq : presenceOverlay = (do
    let isItem ← presenceSubject
    let subject ← word "id"
    let texts ← textPair "present" "absent" .overlayPresentText .overlayAbsentText
    let rule := if isItem then Rule.overlayItemPresence else .overlayNpcPresence
    return (rule, .token subject :: texts.map .node)) := by
  rw [presenceOverlay, presenceSubject, bind_assoc]
  congr 1
  funext isItem
  cases isItem <;> simp

/-- An overlay with conditions. -/
def conditionalOverlay : Parse (Rule × List Element) :=
  (fun ns => (Rule.overlayConditional, ns.map Element.node)) <$> generalOverlay

theorem overlayParts_eq : overlayParts = (do
    if ← looking (braced (·.isKeyword "flag")) then flagOverlay
    else if ← looking (braced (·.isOneOf ["item", "npc"])) then presenceOverlay
    else if ← looking stated then stateOverlay
    else conditionalOverlay) :=
  rfl

theorem run_overlayParts : overlayParts c s =
    if braced (·.isKeyword "flag") s.rest then flagOverlay c s
    else if braced (·.isOneOf ["item", "npc"]) s.rest then presenceOverlay c s
    else if stated s.rest then stateOverlay c s
    else conditionalOverlay c s := by
  rw [overlayParts_eq, run_fork, run_fork, run_fork]

theorem clears_flagOverlay (m : Repair) : Clears 3 (braced (·.isKeyword "flag")) flagOverlay := by
  have htexts : Opening m (·.isMark .openBrace) True 
      (textPair "set" "unset" .overlaySetText .overlayUnsetText) :=
    .textPair rfl rfl
  refine .named (fun r hr => ?_) (fun c s hr => ?_) (fun _ flag => htexts.begins.map) fun r hr => ?_
  · obtain ⟨t, u, v, rest, rfl, -⟩ := braced_iff.mp hr
    simp
  · exact ⟨(), run_keyword (Bool.and_eq_true_iff.mp hr).1⟩
  · obtain ⟨t, u, v, rest, rfl, -, hv⟩ := braced_iff.mp hr
    exact next_iff.mpr ⟨v, rest, rfl, hv⟩

theorem run_presenceSubject (h : next (·.isOneOf ["item", "npc"]) s.rest) :
    ∃ isItem, presenceSubject c s = .ok isItem s.advance := by
  have heat : eatKeyword "item" = eatWhen (next (·.isKeyword "item")) := rfl
  rw [presenceSubject, heat, run_bind, run_eatWhen]
  by_cases hitem : next (·.isKeyword "item") s.rest
  · exact ⟨true, by simp [hitem]⟩
  · have hnpc : next (·.isKeyword "npc") s.rest := by
      obtain ⟨t, rest, hr, ht⟩ := next_iff.mp h
      simpa [next, hr, Token.isOneOf] using Or.resolve_left (by simpa [Token.isOneOf] using ht)
        (by simpa [next, hr] using hitem)
    exact ⟨false, by simp [hitem, run_bind, run_keyword hnpc]⟩

theorem clears_presenceOverlay (m : Repair) :
    Clears 3 (braced (·.isOneOf ["item", "npc"])) presenceOverlay := by
  have htexts : Opening m (·.isMark .openBrace) True 
      (textPair "present" "absent" .overlayPresentText .overlayAbsentText) :=
    .textPair rfl rfl
  rw [presenceOverlay_eq]
  refine .named (fun r hr => ?_) (fun c s hr => ?_) (fun _ subject => htexts.begins.map)
    fun r hr => ?_
  · obtain ⟨t, u, v, rest, rfl, -⟩ := braced_iff.mp hr
    simp
  · exact run_presenceSubject (Bool.and_eq_true_iff.mp hr).1
  · obtain ⟨t, u, v, rest, rfl, -, hv⟩ := braced_iff.mp hr
    exact next_iff.mpr ⟨v, rest, rfl, hv⟩

theorem clears_stateOverlay (m : Repair) : Clears 4 stated stateOverlay := by
  have hlines : Opening m (·.isMark .openBrace) True moodLines := .moodLines
  refine .named (fun r hr => ?_) (fun c s hr => ?_)
    (fun _ npc => .pair (fun c s hs => ⟨(), run_keyword hs⟩) fun _ => hlines.begins.map)
    fun r hr => ?_
  all_goals obtain ⟨t, u, v, w, rest, hrest, ht, hv, hw⟩ := stated_iff.mp hr
  · simp [hrest]
  · exact ⟨(), run_keyword (next_iff.mpr ⟨t, _, hrest, ht⟩)⟩
  · exact pair_iff.mpr ⟨v, w, rest, by simp [hrest], hv, hw⟩

/-! ## Overlays with conditions -/

/-- What stands behind the first condition of an overlay. -/
def behindCondition (inParens : Bool) (first : Node) : Parse (List Node) := do
  let more ← many (commaStep overlayCondition (return true))
  if inParens then mark .closeParen
  let texts ← blockOf ["text"] (keywordThenString .overlayText "text")
  return first :: more ++ texts

theorem generalOverlay_eq : generalOverlay = (do
    let inParens ← eatMark .openParen
    let first ← overlayCondition
    behindCondition inParens first) := by
  simp only [generalOverlay, commaSeparated_eq, bind_assoc, pure_bind]
  rfl

theorem Candid.behindCondition (inParens : Bool) (first : Node) :
    Candid m false False (Grammar.behindCondition inParens first) := by
  have hcondition : Candid m true False overlayCondition := Opening.overlayCondition.toCandid
  have htexts (more : List Node) : Candid m false False (do
      let texts ← Grammar.blockOf ["text"] (Grammar.keywordThenString .overlayText "text")
      return first :: more ++ texts) :=
    .map (Opening.blockOf rfl
      (.accept (.keywordThenString rfl) fun t ht => by simpa [Token.isOneOf] using ht)).candid
  refine .bind (.many (.commaStepAll hcondition) ?_) fun more => ?_
  · exact (commaStep_productive (g := fun _ => true) hcondition.advances).1
  · exact .ite (fun _ => .bind .mark fun _ => htexts more) fun _ => htexts more

theorem run_generalOverlay (h : next (·.isOneOf overlayStarters) s.rest) :
    generalOverlay c s = (overlayCondition >>= behindCondition false) c s := by
  obtain ⟨t, rest, hr, ht⟩ := next_iff.mp h
  have heat : eatMark .openParen = eatWhen (next (·.isMark .openParen)) := rfl
  have hnot : next (·.isMark .openParen) s.rest = false := by
    simp [next, hr, Token.isMark_of_isOneOf ht]
  rw [generalOverlay_eq, heat, run_bind, run_eatWhen, hnot]
  rfl

theorem Opening.conditionalOverlay :
    Opening m (·.isOneOf overlayStarters) False Grammar.conditionalOverlay := by
  refine ⟨.map ?_, .map fun I c hI s hr hs => ?_⟩
  · rw [generalOverlay_eq]
    exact .bind .eatMark fun inParens =>
      .andThen Opening.overlayCondition.toCandid (.behindCondition inParens)
  · rw [run_generalOverlay hr]
    have hbegins := (Opening.overlayCondition (m := m)).begins
    have hbehind (first : Node) := (Candid.behindCondition (m := m) false first).toRegular
    exact hbegins.bind hbehind hI hr hs

/-- An overlay with conditions does not offer a brace or `here` within the three tokens that its
first condition takes at least. -/
theorem conditionalOverlay_error {fault : SyntaxFault} (m : Repair)
    (hr : next (·.isOneOf overlayStarters) s.rest)
    (h : conditionalOverlay c s = .error fault s') (hlen : s.rest.length < s'.rest.length + 3) :
    ∀ e ∈ fault.cause.expected, e ∉ ["\x7b", "here"] := by
  rw [conditionalOverlay, run_map, run_generalOverlay hr, run_bind] at h
  cases hfirst : overlayCondition c s with
  | error fault' s₁ =>
      simp only [hfirst] at h
      cases h
      exact withholds_overlayCondition hfirst
  | ok first s₁ =>
      simp only [hfirst] at h
      have hcosts := costs_overlayCondition c s first s₁ hfirst
      split at h
      · cases h
      · cases h
        have hbehind := (Candid.behindCondition (m := m) false first).advances.error ‹_›
        have hle := hbehind.rest.length_le
        omega

theorem conditionalOverlay_of_npc (hn : next (·.isKeyword "npc") s.rest)
    (hw : next (·.isWord) s.rest.tail = false) :
    ∃ fault, conditionalOverlay c s = .error fault s.advance := by
  have hstarter : next (·.isOneOf overlayStarters) s.rest := by
    obtain ⟨t, rest, hr, ht⟩ := next_iff.mp hn
    exact next_iff.mpr ⟨t, rest, hr, by simp [Token.isOneOf, overlayStarters, ht]⟩
  obtain ⟨fault, hrun⟩ := overlayCondition_of_npc (c := c) hn hw
  exact ⟨fault, by rw [conditionalOverlay, run_map, run_generalOverlay hstarter, run_bind, hrun]⟩

/-! ## Overlays -/

namespace Opening

theorem flagOverlay : Opening m (·.isKeyword "flag") X Grammar.flagOverlay :=
  .bind (.keyword rfl) fun _ => .bind (.word rfl) fun _ => .map (Opening.textPair rfl rfl).candid

theorem presenceOverlay : Opening m (·.isOneOf ["item", "npc"]) X Grammar.presenceOverlay := by
  rw [presenceOverlay_eq]
  have hsubject : Opening m (fun t => t.isKeyword "item" || t.isKeyword "npc") X presenceSubject :=
    .clause (.pure true) (.bind (.keyword rfl) fun _ => .pure false)
  refine .accept (.bind hsubject fun isItem => .bind (.word rfl) fun subject => ?_) fun t ht => ?_
  · exact .map (Opening.textPair rfl rfl).candid
  · simpa [Token.isOneOf] using ht

theorem stateOverlay : Opening m (·.isKeyword "npc") X Grammar.stateOverlay :=
  .bind (.keyword rfl) fun _ => .bind (.word rfl) fun _ => .bind (.keyword rfl) fun _ =>
    .map Opening.moodLines.candid

end Opening

/-- Every form of an overlay is told by a word, but for conditions in parentheses. -/
theorem run_overlayParts_of_not (h : next (·.isOneOf overlayStarters) s.rest = false) :
    overlayParts c s = conditionalOverlay c s := by
  have hnot {A : Token → Bool} (hA : ∀ t, A t → t.isOneOf overlayStarters) : ¬next A s.rest := by
    simp [next_eq_false h hA]
  rw [run_overlayParts, if_neg fun hb => hnot (fun t ht => ?flag) (next_of_braced hb),
    if_neg fun hb => hnot (fun t ht => ?subject) (next_of_braced hb),
    if_neg fun hb => hnot (fun t ht => ?npc) (next_of_stated hb)]
  case flag | npc => simp [Token.isOneOf, overlayStarters, ht]
  case subject =>
    obtain ht | ht : t.isKeyword "item" ∨ t.isKeyword "npc" := by simpa [Token.isOneOf] using ht
    all_goals simp [Token.isOneOf, overlayStarters, ht]

theorem Regular.overlayParts (m : Repair) : Regular true Grammar.overlayParts := by
  have hgeneral : Opening m _ _ conditionalOverlay := .conditionalOverlay
  rw [overlayParts_eq]
  exact .fork (Opening.flagOverlay (m := m) (X := True)).toRegular
    (.fork (Opening.presenceOverlay (m := m) (X := True)).toRegular
      (.fork (Opening.stateOverlay (m := m) (X := True)).toRegular hgeneral.toRegular))

theorem commits_overlayParts (m : Repair) :
    Commits 1 (next (·.isOneOf overlayStarters)) overlayParts := by
  have hgeneral : Opening m _ _ conditionalOverlay := .conditionalOverlay
  rw [overlayParts_eq]
  refine .fork ((Opening.flagOverlay (m := m) (X := True)).begins.mono fun r hr => ?_)
    (.fork ((Opening.presenceOverlay (m := m) (X := True)).begins.mono fun r hr => ?_)
      (.fork ((Opening.stateOverlay (m := m) (X := True)).begins.mono fun r hr => ?_)
        (hgeneral.begins.mono fun r hr => ?_)))
  all_goals simp only [Bool.and_eq_true] at hr
  · exact (Bool.and_eq_true_iff.mp hr.2).1
  · exact (Bool.and_eq_true_iff.mp hr.2).1
  · exact (Bool.and_eq_true_iff.mp (Bool.and_eq_true_iff.mp hr.2).1).1
  · exact hr.1.1.1

/-- The tokens behind the new one are as they were behind the token in its place. -/
theorem Repair.behind_any (i : Nat) {B : Token → Bool}
    (hB : ∀ t t' : Token, t.kind = t'.kind → B t = B t') :
    m.behind[i]?.any B = m.left[i + 1]?.any B := by
  have hkinds := congrArg (·[i]?) m.kinds
  simp only [List.getElem?_map, List.getElem?_tail] at hkinds
  cases hb : m.behind[i]? <;> cases hl : m.left[i + 1]? <;> simp_all
  exact hB _ _ hkinds

/-- Conditions do not end where a brace or `here` in their place would tell another form. -/
theorem mirrors_conditionalOverlay {r' : EStateM.Result SyntaxFault State (Rule × List Element)}
    (hn : next (·.isOneOf overlayStarters) (m.old s).rest) (hlen : s.rest.length < 3)
    (ht : m.token.isMark .openBrace ∨ m.token.isKeyword "here") :
    Mirrors m (conditionalOverlay m.found (m.old s)) r' := by
  have hsplit : (m.old s).rest.length = s.rest.length + m.left.length := List.length_append
  constructor
  · intro a s' h
    have hcosts : Costs 3 conditionalOverlay := Composed.costs_generalOverlay.map
    have hlt := hcosts m.found (m.old s) a _ h
    have hle := (Repair.left_suffix (m := m) (s := s')).length_le
    omega
  · rintro fault s' h hrest ⟨e, he, hadmits⟩
    have hnot := conditionalOverlay_error m hn h (by rw [hrest]; omega) e he
    obtain ⟨hmark, hkeyword⟩ := Expectation.eq_of_admits hadmits
    refine absurd ?_ hnot
    rcases ht with ht | ht
    · simp [hmark _ ht, Mark.spelling]
    · simp [hkeyword _ ht]

/-! The form of an overlay in both readings, by how many of the tokens that tell it lie before the
end of the first reading. -/

section

variable (hs : s.faults = [])

include hs

theorem mirrors_overlayParts_of_form
    (hbraced : ∀ A, braced A (m.new s).rest = braced A (m.old s).rest)
    (hstated : stated (m.new s).rest = stated (m.old s).rest) :
    Mirrors m (overlayParts m.found (m.old s)) (overlayParts m.repaired (m.new s)) := by
  have hfalse : s.rest = [] → ¬False := fun _ h => h
  rw [run_overlayParts, run_overlayParts, hbraced, hbraced, hstated]
  split
  · exact Opening.flagOverlay.toCandid.mirrors hs hfalse
  split
  · exact Opening.presenceOverlay.toCandid.mirrors hs hfalse
  split
  · exact Opening.stateOverlay.toCandid.mirrors hs hfalse
  · exact Opening.conditionalOverlay.toCandid.mirrors hs hfalse

theorem mirrors_overlayParts_nil (hr : s.rest = []) :
    Mirrors m (overlayParts m.found (m.old s)) (overlayParts m.repaired (m.new s)) := by
  cases hnew : next (·.isOneOf overlayStarters) (m.new s).rest with
  | true =>
      refine .of_past (commits_overlayParts m Repair.past_lasting hnew ?_)
      exact Repair.past_of_iterate hs (by simp [hr])
  | false =>
      cases hold : next (·.isOneOf overlayStarters) (m.old s).rest with
      | true =>
          refine .of_short (commits_overlayParts m (lasting_length _ _) hold ?_)
          have hleft : (m.old s).rest = m.left := by simp [Repair.old, State.before, hr]
          obtain ⟨t, rest, hcons, -⟩ := next_iff.mp hold
          simp [advance_rest, ← hleft, hcons]
      | false =>
          rw [run_overlayParts_of_not hnew, run_overlayParts_of_not hold]
          exact Opening.conditionalOverlay.toCandid.mirrors hs fun _ h => h

/-- The tokens behind the new one tell the form. -/
theorem mirrors_overlayParts_one {t : Token} (hr : s.rest = [t]) :
    Mirrors m (overlayParts m.found (m.old s)) (overlayParts m.repaired (m.new s)) := by
  have hold : (m.old s).rest = t :: m.left := by simp [Repair.old, State.before, hr]
  have hnew : (m.new s).rest = t :: m.token :: m.behind := by simp [Repair.new, State.before, hr]
  have hmark (i : Nat) : m.behind[i]?.any (·.isMark .openBrace) =
      m.left[i + 1]?.any (·.isMark .openBrace) :=
    Repair.behind_any i fun t t' h => by simp [Token.isMark, h]
  have hhere : m.behind[0]?.any (·.isKeyword "here") = m.left[1]?.any (·.isKeyword "here") :=
    Repair.behind_any 0 fun t t' h => by simp [Token.isKeyword, h]
  refine mirrors_overlayParts_of_form hs (fun A => ?_) ?_
  · simp only [braced, hold, hnew, List.getElem?_cons_zero, List.getElem?_cons_succ, hmark]
  · simp only [stated, hold, hnew, List.getElem?_cons_zero, List.getElem?_cons_succ, hhere, hmark]

/-- A brace or `here` behind two tokens makes conditions another form, but conditions do not end
there. -/
theorem mirrors_overlayParts_two {t u : Token} (hr : s.rest = [t, u]) :
    Mirrors m (overlayParts m.found (m.old s)) (overlayParts m.repaired (m.new s)) := by
  have hold : (m.old s).rest = t :: u :: m.left := by simp [Repair.old, State.before, hr]
  have hnew : (m.new s).rest = t :: u :: m.token :: m.behind := by
    simp [Repair.new, State.before, hr]
  have hlen : s.rest.length = 2 := by simp [hr]
  rw [run_overlayParts]
  split
  · exact (clears_flagOverlay m).mirrors ‹_› (by omega) (by omega)
  split
  · exact (clears_presenceOverlay m).mirrors ‹_› (by omega) (by omega)
  split
  · exact (clears_stateOverlay m).mirrors ‹_› (by omega) (by omega)
  by_cases hform : braced (·.isKeyword "flag") (m.new s).rest ∨
      braced (·.isOneOf ["item", "npc"]) (m.new s).rest ∨ stated (m.new s).rest
  · obtain ⟨ht, htoken⟩ : t.isOneOf overlayStarters ∧
        (m.token.isMark .openBrace ∨ m.token.isKeyword "here") := by
      simp only [braced, stated, hnew, List.getElem?_cons_zero, List.getElem?_cons_succ,
        Option.any_some, Bool.and_eq_true, Token.isOneOf, overlayStarters, List.any_cons,
        List.any_nil, Bool.or_false, Bool.or_eq_true] at hform ⊢
      grind
    exact mirrors_conditionalOverlay (next_iff.mpr ⟨t, _, hold, ht⟩) (by omega) htoken
  · simp only [not_or] at hform
    rw [run_overlayParts, if_neg hform.1, if_neg hform.2.1, if_neg hform.2.2]
    exact Opening.conditionalOverlay.toCandid.mirrors hs fun _ h => h

/-- A brace behind `npc`, a token and `here` makes conditions an overlay on the states of an npc.
That gets past the brace where the token is a name, and where it is none conditions end at it. -/
theorem mirrors_overlayParts_three {t u v : Token} (hr : s.rest = [t, u, v]) :
    Mirrors m (overlayParts m.found (m.old s)) (overlayParts m.repaired (m.new s)) := by
  have hold : (m.old s).rest = t :: u :: v :: m.left := by simp [Repair.old, State.before, hr]
  have hnew : (m.new s).rest = t :: u :: v :: m.token :: m.behind := by
    simp [Repair.new, State.before, hr]
  have hlen : s.rest.length = 3 := by simp [hr]
  have hbraced (A : Token → Bool) : braced A (m.new s).rest = braced A (m.old s).rest := by
    simp [braced, hold, hnew]
  cases hstated : stated (m.old s).rest with
  | true =>
      rw [run_overlayParts, run_overlayParts, hbraced, hbraced, hstated]
      split
      · exact Opening.flagOverlay.toCandid.mirrors hs fun _ h => h
      split
      · exact Opening.presenceOverlay.toCandid.mirrors hs fun _ h => h
      · exact (clears_stateOverlay m).mirrors hstated (by omega) (by omega)
  | false =>
      cases hstated' : stated (m.new s).rest with
      | false => exact mirrors_overlayParts_of_form hs hbraced (by rw [hstated, hstated'])
      | true =>
          have hnot (A : Token → Bool) : ¬braced A (m.new s).rest := by
            obtain ⟨_, _, v', _, _, hcons, -, hhere, -⟩ := stated_iff.mp hstated'
            obtain rfl : v = v' := by
              rw [hnew] at hcons
              injections
            simp [braced, hnew, Token.isMark, Token.isKeyword_iff.mp hhere]
          cases hword : next (·.isWord) (m.new s).rest.tail with
          | true =>
              rw [run_overlayParts (c := m.repaired), if_neg (hnot _), if_neg (hnot _),
                if_pos hstated']
              refine .of_past ((clears_stateOverlay m).commits Repair.past_lasting ?_ ?_)
              · simp [hstated', hword]
              · exact Repair.past_of_iterate hs (by omega)
          | false =>
              have hnpc : next (·.isKeyword "npc") (m.old s).rest := by
                simpa [next, hold, hnew] using next_of_stated hstated'
              obtain ⟨fault, hrun⟩ := conditionalOverlay_of_npc (c := m.found) hnpc
                (by simpa [next, hold, hnew] using hword)
              rw [run_overlayParts (c := m.found), if_neg (hbraced _ ▸ hnot _),
                if_neg (hbraced _ ▸ hnot _), if_neg (by simp [hstated]), hrun]
              refine .of_early ?_
              simp only [advance_rest, hold, List.tail_cons, List.length_cons]
              omega

end

theorem Candid.overlayParts : Candid m true False Grammar.overlayParts := by
  refine ⟨.overlayParts m, fun {s} hs _ => ?_⟩
  match hr : s.rest with
  | [] => exact mirrors_overlayParts_nil hs hr
  | [t] => exact mirrors_overlayParts_one hs hr
  | [t, u] => exact mirrors_overlayParts_two hs hr
  | [t, u, v] => exact mirrors_overlayParts_three hs hr
  | t :: u :: v :: w :: rest =>
      have hold : (m.old s).rest = t :: u :: v :: w :: (rest ++ m.left) := by
        simp [Repair.old, State.before, hr]
      have hnew : (m.new s).rest = t :: u :: v :: w :: (rest ++ m.token :: m.behind) := by
        simp [Repair.new, State.before, hr]
      refine mirrors_overlayParts_of_form hs (fun A => ?_) ?_
      · simp [braced, hold, hnew]
      · simp [stated, hold, hnew]

theorem Opening.overlay : Opening m (·.isKeyword "overlay") X Grammar.overlay := by
  rw [overlay_eq]
  exact .node (.bind (.keyword rfl) fun _ => .bind (.keyword rfl) fun _ =>
    .weaken .overlayParts (by simp))

/-! ## Rooms -/

namespace Opening

theorem roomStatement : Opening m (·.isOneOf roomStarters) True Grammar.roomStatement := by
  refine .accept (.told (.keywordThenString rfl) (.told .description
    (.told (.keywordThenBoolean rfl)
    (.told .exit .overlay)))) fun t ht => ?_
  simpa [Token.isOneOf, roomStarters, or_assoc] using ht

theorem room : Opening m (·.isKeyword "room") X Grammar.room :=
  .behind rfl (.bind (.word rfl) fun _ => .map (Opening.blockOf rfl .roomStatement).candid)

end Opening

end Storyworld.Grammar
