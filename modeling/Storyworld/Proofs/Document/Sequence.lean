import Storyworld.Proofs.Document.Expected
import Storyworld.Proofs.Grammar.Sequence

namespace Storyworld

namespace Grammar

/-! The faults of a source are found one behind the other. Every parser with a block hands it a
statement that takes the word it is told by, so that no fault is found again where reading goes
on. -/

variable {α : Type} {c : Context} {tk : Bool} {p : Parse α} {B : Token → Bool} {Q : α → Prop}
  {starters : List String} {statement guard body cond act : Parse Node}

namespace Sequential

/-- A parser without a block, as it is composed where tokens are spelled right. -/
theorem flat (h : Composed Token.IsSpelled (fun _ => True) true true p Q) : Sequential c p :=
  h.sequential rfl

/-- A parser that takes the token it offers first begins with it. -/
theorem leading (hp : Sequential c p) (h : ∀ m, Opening m B True p) : Leading c B p :=
  let m : Repair := ⟨⟨.strict, .origin⟩, ⟨.strict, .origin⟩, [], ⟨.blank, .origin, ""⟩, [], rfl,
    Nat.le_refl _, rfl⟩
  ⟨hp, (h m).advances, (h m).begins⟩

/-- A parser told by the next token, or another one. -/
theorem told {q : Parse α} (hp : Sequential c p) (hq : Sequential c q) :
    Sequential c (do if ← nextIs B then p else q) :=
  .fork (F := next B) hp hq

/-! ## Rooms -/

theorem exitOptions : Sequential c Grammar.exitOptions := by
  have hoption := flat (c := c) .exitOptionItem
  refine .node (.map (.map (.blockOf (hoption.leading fun m => ?_))))
  exact .bind .exitOption fun option => .bind (.map .eatMark) fun _ => .pure option

theorem exit : Sequential c Grammar.exit := by
  refine .node (.map (.bind (flat .keyword) fun _ => .bind (flat .label) fun direction => ?_))
  refine .bind (flat (.mark (by decide) (by decide))) fun _ => .bind (flat .word) fun target => ?_
  exact .told (.map .exitOptions) (.pure _)

theorem moodLines : Sequential c Grammar.moodLines := by
  have hline : Sequential c (Grammar.node .overlayStateLine do
      let state ← Grammar.mood
      let text ← Grammar.string
      return [state, text]) :=
    .node (.map (.bind (flat .mood) fun state => .bind (flat .string) fun text => .pure _))
  refine .blockOf (hline.leading fun m => ?_)
  refine .accept (.node (.map (.bind .mood fun state => .bind .string fun text => .pure _))) ?_
  exact fun _ => Token.isWord_of_isOneOf

theorem keywordThenString {r : Rule} {w : String} :
    Sequential c (Grammar.keywordThenString r w) :=
  .node (.map (.bind (flat .keyword) fun _ => .map (flat .string)))

theorem textPair {first second : String} {r r' : Rule} (h : Token.isReserved first)
    (h' : Token.isReserved second) : Sequential c (Grammar.textPair first second r r') := by
  refine .blockOf (leading (.told .keywordThenString .keywordThenString) fun m => ?_)
  refine .accept (.told (.keywordThenString h) (.keywordThenString h')) fun t ht => ?_
  simpa [Token.isOneOf] using ht

theorem conditionalOverlay : Sequential c Grammar.conditionalOverlay := by
  have hconditions : Sequential c (commaSeparated overlayCondition (return true)) :=
    flat (.commaSeparatedAll .overlayCondition)
  have htexts (conditions : List Node) : Sequential c (do
      let texts ← Grammar.blockOf ["text"] (Grammar.keywordThenString .overlayText "text")
      return conditions ++ texts) := by
    refine .map (.blockOf (keywordThenString.leading fun m => ?_))
    exact .accept (.keywordThenString rfl) fun t ht => by simpa [Token.isOneOf] using ht
  refine .map (.bind (.eat (foresees_first fun t ht => ?_)) fun inParens =>
    .bind hconditions fun conditions => .ite ?_ (htexts conditions))
  · exact Token.isBrace_of_isMark ht (by decide) (by decide)
  · exact .bind (flat (.mark (by decide) (by decide))) fun _ => htexts conditions

theorem overlay : Sequential c Grammar.overlay := by
  have hsubject : Sequential c presenceSubject :=
    .bind (.eat (foresees_first fun t => Token.isBrace_of_isKeyword)) fun isItem =>
      .ite (.pure true) (.bind (flat .keyword) fun _ => .pure false)
  rw [overlay_eq, overlayParts_eq]
  refine .node (.bind (flat .keyword) fun _ => .bind (flat .keyword) fun _ => .fork ?flag
    (.fork ?presence (.fork ?state .conditionalOverlay)))
  case flag =>
    exact .bind (flat .keyword) fun _ => .bind (flat .word) fun flag => .map (.textPair rfl rfl)
  case presence =>
    rw [presenceOverlay_eq]
    exact .bind hsubject fun isItem => .bind (flat .word) fun subject => .map (.textPair rfl rfl)
  case state =>
    exact .bind (flat .keyword) fun _ => .bind (flat .word) fun npc =>
      .bind (flat .keyword) fun _ => .map .moodLines

theorem keywordThenBoolean {r : Rule} {w : String} :
    Sequential c (Grammar.keywordThenBoolean r w) :=
  .node (.map (.bind (flat .keyword) fun _ => .map (flat .boolean)))

theorem description {r : Rule} : Sequential c (Grammar.description r) :=
  .node (.map (.bind (flat .oneOf) fun _ => .map (flat .string)))

theorem roomStatement : Sequential c Grammar.roomStatement :=
  .told .keywordThenString (.told .description (.told .keywordThenBoolean (.told .exit .overlay)))

/-- A definition of the kind that consists of its name and a block. -/
theorem headed {w what : String} {r : Rule} (hp : Sequential c statement)
    (h : ∀ m, Opening m (·.isOneOf starters) True statement) : Sequential c (Grammar.node r do
      Grammar.keyword w
      let id ← Grammar.word what
      let statements ← Grammar.blockOf starters statement
      return .token id :: statements.map .node) :=
  .node (.map (.bind (flat .keyword) fun _ => .bind (flat .word) fun _ =>
    .map (.blockOf (hp.leading h))))

theorem room : Sequential c Grammar.room :=
  .headed .roomStatement fun _ => .roomStatement

/-! ## Items, npcs, goals and spinners -/

theorem consumable : Sequential c Grammar.consumable := by
  have hstatement : Sequential c consumableStatement :=
    .told (.node (.map (.bind (flat .keyword) fun _ => .map .number)))
      (.told (.node (.map (.bind (flat .keyword) fun _ =>
        .map (flat (.ability (List.mem_singleton_self _)))))) (flat .whenConsumed))
  exact .node (.map (.bind (flat .keyword) fun _ =>
    .map (.blockOf (hstatement.leading fun _ => .consumableStatement))))

theorem item : Sequential c Grammar.item := by
  have hability : Sequential c Grammar.ability := flat (.ability (List.mem_singleton_self _))
  have hcontainer : Sequential c (containerState .itemContainerState) :=
    flat (.containerState (List.mem_singleton_self _) rfl)
  refine .headed (.told .keywordThenString (.told .description (.told .keywordThenBoolean
    (.told .keywordThenBoolean (.told (flat .itemLocation) (.told hability (.told .keywordThenString
      (.told hcontainer (.told (flat .requirement) .consumable))))))))) fun _ => .itemStatement

theorem npc : Sequential c Grammar.npc := by
  have hdialogue (state : Node) : Sequential c (do
      Grammar.mark .openBrace
      let lines ← Grammar.many dialogueLine
      return Element.node state :: lines.map .token) := by
    have hmap : Sequential c ((fun lines : List Token => Element.node state :: lines.map .token) <$>
        (do Grammar.mark .openBrace; Grammar.many dialogueLine)) := .map .lines
    rwa [map_eq_bind, bind_assoc] at hmap
  refine .headed (.told .keywordThenString (.told .description (.told (flat .npcLocation)
    (.told ?state (.told (flat (.movement fun _ h => h)) ?dialogue))))) fun _ => .npcStatement
  case state => exact .node (.map (.bind (flat .keyword) fun _ => .map (flat .mood)))
  case dialogue =>
    exact .node (.map (.bind (flat .keyword) fun _ => .bind (flat .mood) hdialogue))

theorem goal : Sequential c Grammar.goal :=
  .headed (flat .goalStatement) fun _ => .goalStatement

theorem spinner : Sequential c Grammar.spinner := by
  have hwedge : Leading c (·.isOneOf ["wedge"]) wedge := (flat .wedge).leading fun m =>
    .accept .wedge fun t ht => by simpa [Token.isOneOf] using ht
  exact .node (.map (.bind (flat .keyword) fun _ => .bind (flat .label) fun id =>
    .map (.blockOf hwedge)))

/-! ## Triggers -/

theorem modifyAction : Sequential c Grammar.modifyAction :=
  .bind (flat .keyword) fun _ => .bind (flat .word) fun _ =>
    .map (.blockOf ((flat .patchStatement).leading fun _ => .patchStatement))

theorem scheduleAction (hg : Sequential c guard) (hb : Sequential c body) :
    Sequential c (Grammar.scheduleAction guard body) := by
  have hword {w : String} {clause : Parse Node} (hp : Sequential c clause) :
      Sequential c (Grammar.optional w clause) := .told (.map hp) (.pure _)
  have hguard : Sequential c (scheduleGuard guard) := by
    refine .bind (.eat (foresees_first fun t => Token.isBrace_of_isKeyword)) fun guarded => .ite ?_
      (.pure _)
    exact .bind hg fun condition => .bind (hword (flat .onFalse)) fun retry => .pure _
  refine .bind (flat .oneOf) fun anchor => .bind .number fun turns => .bind hguard fun guards => ?_
  exact .bind (hword .keywordThenString) fun notes => .bind hb fun statements => .pure _

theorem actionOver (hg : Sequential c guard) (hb : Sequential c body) :
    Sequential c (Grammar.actionOver guard body) := by
  have hword {w what : String} {r : Rule} : Sequential c (do
      Grammar.keyword w
      return (r, [Element.token (← Grammar.word what)])) :=
    .bind (flat .keyword) fun _ => .map (flat .word)
  have hlock {r r' : Rule} : Sequential c (lockAction r r') :=
    .bind (flat .oneOf) fun what => .ite (.map (flat .word)) (.bind (flat .keyword) fun _ =>
      .bind (flat .word) fun room => .bind (flat .keyword) fun _ =>
        .bind (flat .label) fun direction => .pure _)
  refine .node (.bind (flat .oneOf) fun head => ?_)
  split
  case h_1 => exact .map (flat .string)
  case h_2 => exact flat .addAction
  case h_3 | h_4 | h_5 => exact hword
  case h_6 => exact flat .replaceAction
  case h_7 => exact flat .spawnAction
  case h_8 => exact flat .despawnAction
  case h_9 => exact flat .awardAction
  case h_10 | h_11 => exact hlock
  case h_12 => exact flat .revealAction
  case h_13 => exact flat .pushAction
  case h_14 => exact flat .setAction
  case h_15 => exact flat .npcAction
  case h_16 => exact .bind (flat .keyword) fun _ => .map (flat .string)
  case h_17 | h_19 => exact hword
  case h_18 => exact flat .giveAction
  case h_20 => exact .modifyAction
  case h_21 => exact .scheduleAction hg hb

theorem deed (ha : Sequential c act) : Sequential c (Grammar.deed act) :=
  .node (.map (.bind (flat .keyword) fun _ => .map ha))

/-- Where a conditional block holds no deed, the fault is told by the next token, which is there if
it is a condition. -/
theorem refused : Sequential c (do
    if ← Grammar.atKeyword "if" then throw ⟨.nestedConditional, ← here⟩
    else Grammar.unexpected ["do", "\x7d"] : Parse α) := by
  have heq : (do
      if ← Grammar.atKeyword "if" then throw ⟨.nestedConditional, ← here⟩
      else Grammar.unexpected ["do", "\x7d"] : Parse α) = (do
      if ← looking (next (·.isKeyword "if")) then Grammar.failHere fun _ => .nestedConditional
      else Grammar.unexpected ["do", "\x7d"]) := rfl
  rw [heq]
  refine .fails (g := fun s =>
      if next (·.isKeyword "if") s.rest then ⟨.nestedConditional, s.place c⟩
      else s.unexpected c ["do", "\x7d"]) (fun s => ?_) (fun s => ?_) fun s hnil => ?_
  · rw [run_fork, run_failHere, run_unexpected]
    split <;> rfl
  · split
    · rfl
    · exact unexpected_span _
  · simp [next, hnil, State.unexpected, SyntaxFault.Cause.AtEnd]

theorem branch (hc : Sequential c cond) (ha : Sequential c act)
    (h : ∀ m, Candid m true False act) : Sequential c (Grammar.branch cond act) := by
  refine .node (.map (.bind (flat .keyword) fun _ => .bind hc fun condition =>
    .map (.block (leading (.told (.deed ha) .refused) fun m => ?_))))
  refine .accept (.told (.deed (h m)) (.never (.mono .refused fun _ => .inl trivial))) fun t ht => ?_
  simpa [Token.isOneOf] using ht

theorem statements (hc : Sequential c cond) (hc' : ∀ m, Candid m true False cond)
    (ha : Sequential c act) (ha' : ∀ m, Candid m true False act) :
    Sequential c (Grammar.statements cond act) := by
  refine .node (.map (.map (.blockOf (leading (.told (.deed ha) (.branch hc ha ha')) fun m => ?_))))
  refine .accept (.told (.deed (ha' m)) (.branch (hc' m) (ha' m))) fun t ht => ?_
  simpa [Token.isOneOf] using ht

theorem condition {levels : Nat} {place : Place} : Sequential c (Grammar.condition levels place) :=
  flat (.condition levels place)

theorem action (levels : Nat) : Sequential c (Grammar.action levels) := by
  induction levels with
  | zero =>
      exact .actionOver .condition (.fails (fun _ => run_failHere .nestingTooDeep) (fun _ => rfl)
        fun _ _ => trivial)
  | succ levels ih =>
      exact .actionOver .condition (.statements .condition (fun _ => .condition _ _) ih
        fun _ => .action levels)

theorem trigger (levels : Nat) : Sequential c (Grammar.trigger levels) := by
  have hmodifier : Sequential c triggerModifier :=
    Composed.triggerModifier (T := Token.IsSpelled) (S := fun _ => True).sequential rfl
  rw [trigger_eq]
  refine .node (.map (.bind (flat .keyword) fun _ => .bind (flat .string) fun name =>
    .bind hmodifier.many fun modifiers => .bind (.eat (foresees_first fun t =>
      Token.isBrace_of_isKeyword)) fun found => .ite ?_ (.unexpected _)))
  refine .bind (flat (.event fun _ h => h)) fun event => .bind ?_ fun body => .pure _
  exact .statements .condition (fun _ => .condition _ _) (.action levels) fun _ => .action levels

end Sequential

/-! ## Definitions -/

theorem Leading.definition : Leading c (·.isOneOf definitionStarters) Grammar.definition := by
  have hlevels (levels : Nat) :
      Leading c (·.isOneOf definitionStarters) (definitionWithin levels) := by
    refine Sequential.leading (.told (.flat .roomSet) (.told .room (.told .item (.told .npc
      (.told (.trigger levels) (.told .spinner (.told .goal (.unexpected _)))))))) fun m => ?_
    refine .accept (.told .roomSet (.told .room (.told .item (.told .npc (.told (.trigger levels)
      (.told .spinner (.told .goal (.never (.unexpectedOf rfl ?_))))))))) fun t ht => ?_
    · simp
    · simpa [Token.isOneOf, definitionStarters, or_assoc] using ht
  refine ⟨?_, definition_composed.advances, fun I c' hI s hr hs => ?_⟩
  · have h := (hlevels c.settings.maxNesting).toSequential
    rw [definition_eq]
    exact ⟨h.ok, h.error⟩
  · rw [definition_eq, run_within definitionWithin]
    exact (hlevels c'.settings.maxNesting).commits hI hr hs

/-! ## Sources -/

section

variable {s s' u u' : State}

theorem nextDefinition_ready {ns : List Node} (hs : s.Placed c)
    (h : ∃ fs, s.Ready c (·.isOneOf definitionStarters) fs u)
    (hrun : nextDefinition c u = .ok (some ns) u') :
    ∃ fs, s.Ready c (·.isOneOf definitionStarters) fs u' := by
  obtain ⟨fs, hready⟩ := h
  cases nextDerivation_iff.mpr hrun with
  | keeps hdef hsame =>
      obtain ⟨-, gs, htrail, hlt⟩ :=
        hready.ok hs (definition_ne_nil hdef) .definition (fun hnext => hnext) hdef
      exact ⟨gs, htrail, .inr (.inr hlt)⟩
  | drops hdef hdiffers =>
      obtain ⟨-, gs, htrail, hlt⟩ :=
        hready.ok hs (definition_ne_nil hdef) .definition (fun hnext => hnext) hdef
      exact ⟨gs, htrail.pass hs List.suffix_rfl rfl, .inr (.inr hlt)⟩
  | resumes hne hdef hlt =>
      obtain ⟨-, gs, htrail⟩ := hready.error hs hne .definition (fun hnext => hnext) hdef
      refine ⟨gs, htrail.pass hs (State.Behind.resumed _ _ _).rest (resumed_faults _ _), ?_⟩
      rw [or_iff_not_imp_left]
      intro hne'
      obtain ⟨t, rest, hr, ht⟩ := next_iff.mp (skip_stops _ _ hne')
      exact .inl (next_iff.mpr ⟨t, rest, hr, (Bool.and_eq_true_iff.mp ht).2⟩)

theorem nextDefinition_ends (hs : s.Placed c)
    (h : ∃ fs, s.Ready c (·.isOneOf definitionStarters) fs u)
    (hrun : nextDefinition c u = .ok none u') : ∃ fs, s.Trail c fs u' := by
  obtain ⟨fs, hready⟩ := h
  cases nextDerivation_iff.mpr hrun with
  | ends hr => exact ⟨fs, hready.trail⟩
  | stops hne hdef hle =>
      obtain ⟨-, gs, htrail⟩ := hready.error hs hne .definition (fun hnext => hnext) hdef
      exact ⟨gs, htrail⟩

/-- The faults of a source are found one behind the other. -/
theorem definitions_trail {nss : List (List Node)} (hs : s.Placed c)
    (h : many nextDefinition c s = .ok nss s') : ∃ fs, s.Trail c fs s' := by
  obtain ⟨u, hu, hok, -⟩ := many_last (I := fun u => ∃ fs,
    s.Ready c (·.isOneOf definitionStarters) fs u) (c := c) nextDefinition_productive
    (fun hu hrun => nextDefinition_ready hs hu hrun)
    ⟨[], .unchanged List.suffix_rfl rfl, .inr (.inr (by simp))⟩
  exact nextDefinition_ends hs hu (hok h)

end

end Grammar

open Grammar

namespace Tree

/-- Among the faults `f` comes before `g`. Where both begin at one place, that is the end of the
source, and `g` is that the source ends too early. -/
def Precedes (tokens : List Token) (f g : SyntaxFault) : Prop :=
  f.span.start ≤ g.span.start ∧
    (f.span.start = g.span.start → f.span = endOf tokens ∧ g.span = endOf tokens ∧
      f.cause.AtEnd ∧ ∃ es, g.cause = .unexpectedEnd es)

/-- The faults of a source come in its order, and none is found twice. -/
theorem ofTokens_faults_pairwise {source : List Char} {tokens : List Token} (settings : Settings)
    (h : Lexer.tokens source = .ok tokens) :
    (ofTokens settings tokens).faults.Pairwise (Precedes tokens) := by
  let c : Context := ⟨settings, endOf tokens⟩
  have horder := Lexer.tokens_inOrder h
  have hplaced : State.Placed c { rest := significant tokens } := by
    refine ⟨horder.sublist List.filter_sublist, fun t ht => ?_⟩
    have hmem : t ∈ tokens := (List.mem_filter.mp ht).1
    exact (horder.lt t hmem).trans_le (stop_le_endOf horder hmem)
  obtain ⟨nss, s, hmany⟩ := definitions_ok c { rest := significant tokens }
  rcases faults_eq_of_definitions hmany with hsame | ⟨-, hempty⟩
  · obtain ⟨fs, htrail⟩ := definitions_trail hplaced hmany
    obtain rfl : s.faults = fs := htrail.faults
    have hsuccessive := htrail.successive
    rw [hsame]
    refine hsuccessive.pairwise.imp_of_mem fun {f g} hf _ hfg => ?_
    rcases hfg with hlt | ⟨hfspan, hgspan, hcause⟩
    · exact ⟨hlt.le, fun heq => absurd heq hlt.ne⟩
    · have hend := hsuccessive.atEnd f hf (hfspan ▸ Nat.le_refl _)
      exact ⟨by rw [hfspan, hgspan], fun _ => ⟨hfspan, hgspan, hend.2, hcause⟩⟩
  · rw [hempty]
    exact List.pairwise_singleton _ _

/-- Two blocks that do not end, and a deed without its text in the inner one. -/
def openBlocks : String :=
  "trigger \"t\" when always \x7b if chance 5 % \x7b do show 1"

theorem ofTokens_faults_openBlocks :
    Lexer.tokens openBlocks.toList = .ok (Lexer.tokensOf openBlocks) ∧
      (ofTokens {} (Lexer.tokensOf openBlocks)).faults.length = 3 ∧
      (ofTokens {} (Lexer.tokensOf openBlocks)).faults.Pairwise
        (Precedes (Lexer.tokensOf openBlocks)) := by
  have h : Lexer.tokens openBlocks.toList = .ok (Lexer.tokensOf openBlocks) := by decide +kernel
  exact ⟨h, by decide +kernel, ofTokens_faults_pairwise {} h⟩

/-- A schedule that lies too deep and has no block. -/
def deepSchedule : String :=
  "trigger \"t\" when always \x7b do schedule in 1"

/-- At the end of a source the first fault need not be that it ends. -/
theorem ofTokens_faults_deepSchedule :
    let faults := (ofTokens { maxNesting := 0 } (Lexer.tokensOf deepSchedule)).faults
    Lexer.tokens deepSchedule.toList = .ok (Lexer.tokensOf deepSchedule) ∧
      faults = [⟨.nestingTooDeep 0, ⟨42, 42, 1, 43⟩⟩, ⟨.unexpectedEnd ["\x7d"], ⟨42, 42, 1, 43⟩⟩] ∧
      ¬faults.Pairwise fun f g => f.span.start = g.span.start →
        (∃ es, f.cause = .unexpectedEnd es) ∧ ∃ es, g.cause = .unexpectedEnd es := by
  intro faults
  have hfaults : faults =
      [⟨.nestingTooDeep 0, ⟨42, 42, 1, 43⟩⟩, ⟨.unexpectedEnd ["\x7d"], ⟨42, 42, 1, 43⟩⟩] := by
    decide +kernel
  refine ⟨by decide +kernel, hfaults, ?_⟩
  rw [hfaults]
  simp

end Tree

end Storyworld
