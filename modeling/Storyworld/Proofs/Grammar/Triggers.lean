import Storyworld.Proofs.Grammar.Definitions

namespace Storyworld.Grammar

/-! How the parsers of conditions, actions and triggers are composed. -/

variable {T : Token → Prop} {S : Span → Prop} {fl tk : Bool} {rules : List Rule}

theorem definite_roomComma : Definite 0 fun r => r[0]?.any (·.isMark .comma) &&
    r[1]?.any (fun t => t.isWord && !t.isOneOf conditionStarters) :=
  definite_second fun _ ht => Token.isMark_of_isCloser ht (by decide) (by decide)

theorem definite_ambientRooms : Definite 0 fun r => r[0]?.any (·.isKeyword "in") &&
    r[1]?.any (·.isKeyword "rooms") :=
  definite_second fun _ => Token.isKeyword_of_isCloser

theorem continuesRooms_grouped : continuesRooms .grouped = looking fun r =>
    r[1]?.any (fun t => t.isWord && !t.isOneOf conditionStarters) :=
  rfl

/-- What follows the spinner of an ambient condition. -/
def ambientRooms (spinner : Token) (place : Place) : Parse (Rule × List Element) := do
  if ← looking fun r => r[0]?.any (·.isKeyword "in") && r[1]?.any (·.isKeyword "rooms") then
    keyword "in"
    keyword "rooms"
    let rooms ← roomList place
    return (.condAmbient, [spinner, rooms])
  else return (.condAmbient, [spinner])

theorem ambientCondition_eq (place : Place) : ambientCondition place = (do
    let spinner ← word "spinner id"
    ambientRooms spinner place) :=
  rfl

namespace Composed

/-! ## Conditions -/

theorem roomIds {place : Place} :
    Composed T S fl tk (Grammar.commaSeparated (Grammar.word "room id") (continuesRooms place))
      fun ts => ts ≠ [] ∧ ∀ t ∈ ts, T t ∧ t.isWord := by
  cases place with
  | standalone => exact .commaSeparatedAll .word
  | grouped =>
      rw [continuesRooms_grouped]
      exact .commaSeparated .word definite_roomComma

theorem roomList {place : Place} :
    Composed T S fl tk (Grammar.roomList place) (Grown T S [.idList]) :=
  .grown (by simp) fun _ => .map .roomIds fun _ h => .tokens h.2

theorem ambientCondition {place : Place} :
    Composed T S fl tk (Grammar.ambientCondition place) (Parts T S Rule.queries) := by
  rw [ambientCondition_eq]
  refine .andThen .word fun spinner => .bind (.look _ definite_ambientRooms) fun _ => ?_
  refine .ite (fun _ => ?_) fun _ => ?_
  · refine .bind .keyword fun _ => .bind .keyword fun _ => .map .roomList fun rooms hr _ _ _ hs => ?_
    exact .of_fills (by decide) (.token hs (.optionalNode hr .nil))
  · exact .done fun _ hs => .of_fills (by decide) (.token hs (.absent .nil))

theorem query {place : Place} :
    Composed T S fl true (Grammar.query place) (Parts T S Rule.queries) := by
  refine .clause ?has (.clause ?missing (.clause ?flag (.clause ?withNpc (.clause ?npc
    (.clause ?player (.clause ?container (.clause ?chance (.clause ?ambient (.clause ?rooms
      (.unexpected _))))))))))
  case has =>
    refine .bind .oneOf fun what => .given (.ite (fun _ => ?_) fun _ => .ite (fun _ => ?_) fun _ => ?_)
    · exact .map .word fun _ ht => .word (by decide) rfl ht
    · exact .map .word fun _ ht => .word (by decide) rfl ht
    · exact .bind .keyword fun _ => .map .word fun _ ht _ => .word (by decide) rfl ht
  case missing =>
    refine .bind .oneOf fun what => .map .word fun _ ht _ => .ite ?_ ?_
    all_goals exact .word (by decide) rfl ht
  case flag =>
    refine .clause (.bind .keyword fun _ => ?_) (.bind .oneOf fun _ => ?_)
    all_goals exact .map .word fun _ ht _ => .word (by decide) rfl ht
  case withNpc =>
    exact .bind .keyword fun _ => .map .word fun _ ht _ => .word (by decide) rfl ht
  case npc =>
    refine .clause ?_ ?_
    · refine .bind .keyword fun _ => .bind .word fun npc => .andThen .word fun item => ?_
      exact .done fun hi hn _ => .of_fills (by decide) (.token hn (.token hi .nil))
    · refine .bind .oneOf fun _ => .bind .keyword fun _ => .bind .word fun npc => ?_
      exact .andThen .mood fun state => .done fun hs hn _ _ =>
        .of_fills (by decide) (.token hn (.node hs .nil))
  case player =>
    refine .bind .keyword fun _ => .bind .keyword fun _ => ?_
    exact .map .word fun _ ht _ _ => .word (by decide) rfl ht
  case container =>
    refine .bind .word fun container => .bind .keyword fun _ => .bind .keyword fun _ => ?_
    exact .andThen .word fun item => .done fun hi _ _ hc => .of_fills (by decide) (.token hc (.token hi .nil))
  case chance =>
    refine .andThen .number fun percent => .bind (.mark (by decide) (by decide)) fun _ => ?_
    exact .done fun _ hp => .of_fills (by decide) (.token hp .nil)
  case ambient => exact .ambientCondition
  case rooms =>
    exact .bind .keyword fun _ => .map .roomList fun _ h _ => .of_fills (by decide) (.node h .nil)

theorem tooDeep {N : Node → Prop} : Composed T S fl tk Grammar.tooDeep N :=
  .failHere .nestingTooDeep fun _ _ => rfl

theorem groupParts {k : Nat} {r : Rule} {members : List Node} (hr : r ∈ Rule.conditions)
    (hs : r.slots = [.many (.node Rule.conditions)])
    (h : ∀ n ∈ members, Grown T S Rule.conditions n ∧ n.nesting < k) :
    PartsWithin k T S Rule.conditions (r, members.map .node) := by
  refine ⟨.of_fills hr (hs ▸ .nodes fun n hn => (h n hn).1), nestingIn_le.mpr fun c hc => ?_⟩
  obtain ⟨n, hn, rfl⟩ := List.mem_map.mp hc
  exact Element.nestingUnder_of_lt (h n hn).2

theorem conditionOver {k : Nat} {member : Parse Node} {place : Place}
    (hm : ∀ T S, Composed T S true true member
      fun n => Grown T S Rule.conditions n ∧ n.nesting < k) :
    Composed T S fl true (Grammar.conditionOver member place) (GrownWithin k T S Rule.conditions) := by
  refine .grownByWithin fun _ => .alternativeOf (.bind .oneOf fun group => ?_) ?_
  · refine .map (.parenthesized (hm _ _)) fun members h _ => ?_
    split
    · exact groupParts (by decide) rfl h
    · exact groupParts (by decide) rfl h
  · exact .mono .query fun _ h => h.within (by decide) (by decide)

theorem condition (levels : Nat) (place : Place) :
    Composed T S fl true (Grammar.condition levels place)
      (GrownWithin levels T S Rule.conditions) := by
  induction levels generalizing T S fl place with
  | zero => exact .conditionOver fun _ _ => .tooDeep
  | succ levels ih =>
      exact .conditionOver fun _ _ => .mono (ih .grouped) fun _ h => ⟨h.1, Nat.lt_succ_of_le h.2⟩

/-! ## Events -/

/-- A word behind a reserved one. -/
theorem wordBehind {w what : String} {r : Rule} (hr : r ∈ rules) (hs : r.slots = [.one .word]) :
    Composed T S fl tk (do Grammar.keyword w; return (r, [.token (← Grammar.word what)]))
      (Parts T S rules) :=
  .bind .keyword fun _ => .map .word fun _ ht _ => .word hr hs ht

theorem takeEvent : Composed T S fl tk Grammar.takeEvent (Parts T S Rule.events) := by
  refine .bind .keyword fun _ => .andThen .word fun item => .clause ?_ ?_
  · refine .bind .keyword fun _ => .andThen .word fun npc => ?_
    exact .done fun hn _ hi _ => .of_fills (by decide) (.token hi (.token hn .nil))
  · exact .done fun hi _ => .word (by decide) rfl hi

theorem useEvent : Composed T S fl tk Grammar.useEvent (Parts T S Rule.events) := by
  refine .bind .keyword fun _ => .andThen .word fun item => .clause ?_ (.clause ?_ ?_)
  · refine .bind .keyword fun _ => .bind .word fun target => .bind .keyword fun _ => ?_
    refine .andThen .word fun interaction => .done fun hn _ ht _ hi _ => ?_
    exact .of_fills (by decide) (.token hi (.token ht (.token hn .nil)))
  · refine .andThen .word fun name => .done fun hn hi _ => ?_
    exact .of_fills (by decide) (.token hi (.optionalToken hn .nil))
  · exact .done fun hi _ => .of_fills (by decide) (.token hi (.absent .nil))

/-- One of the words of an event, in the text of a token too. -/
theorem ingest_of_other {t : Token} (ht : t.IsSpelled) (h : t.isOneOf eventStarters)
    (hd : t.text ∉ eventStarters.dropLast.dropLast.dropLast) :
    (Part.choice ["eat", "drink", "inhale"]).admits t := by
  have hmem : t.text ∈ eventStarters := by
    simpa [Part.admits] using ht.choice h (by decide)
  have hsplit : eventStarters =
      eventStarters.dropLast.dropLast.dropLast ++ ["eat", "drink", "inhale"] := by decide
  rw [hsplit, List.mem_append] at hmem
  simpa [Part.admits] using hmem.resolve_left hd

theorem event (hT : ∀ t, T t → t.IsSpelled) :
    Composed T S fl tk Grammar.event (Grown T S Rule.events) := by
  refine .grownBy fun _ => .andThen .oneOf fun head => ?_
  split
  case h_1 => exact .done fun _ => .of_fills (by decide) .nil
  case h_4 => exact .given .takeEvent
  case h_8 => exact .bind .keyword fun _ => .given (.given (.wordBehind (by decide) rfl))
  case h_9 => exact .bind .keyword fun _ => .given (.given (.wordBehind (by decide) rfl))
  case h_10 => exact .given .useEvent
  case h_11 =>
    refine .bind .word fun interaction => .bind .keyword fun _ => .bind .keyword fun _ => ?_
    exact .andThen .word fun item => .done fun hi _ _ hn _ =>
      .of_fills (by decide) (.token hn (.token hi .nil))
  case h_12 =>
    refine .bind .keyword fun _ => .bind .word fun item => .bind .keyword fun _ => ?_
    exact .bind .keyword fun _ => .andThen .word fun npc => .done fun hn _ _ hi _ _ =>
      .of_fills (by decide) (.token hi (.token hn .nil))
  case h_13 =>
    refine .bind .keyword fun _ => .bind .word fun item => .bind .keyword fun _ => ?_
    exact .bind .keyword fun _ => .andThen .word fun container => .done fun hc _ _ hi _ _ =>
      .of_fills (by decide) (.token hi (.token hc .nil))
  case h_14 =>
    refine .bind .keyword fun _ => .andThen .word fun item => .done fun hi _ hh => ?_
    have hchoice := ingest_of_other (hT head hh.1.1) hh.2 (by simp [eventStarters]; grind)
    exact .of_fills (by decide) (.token ⟨hh.1, hchoice⟩ (.token hi .nil))
  all_goals exact .given (.wordBehind (by decide) rfl)

/-! ## Actions -/

theorem addAction : Composed T S fl tk Grammar.addAction (Parts T S Rule.effects) := by
  refine .clause ?_ (.clause ?_ (.clause ?_ (.unexpected _)))
  · exact .map .word fun _ ht => .word (by decide) rfl ht
  · refine .bind .keyword fun _ => .andThen .word fun flag => .alternative ?_ ?_
    · exact .map (.keywordThenNumber (List.mem_singleton_self _) rfl) fun _ hl hf _ =>
        .of_fills (by decide) (.token hf (.optionalNode hl .nil))
    · exact .done fun hf _ => .of_fills (by decide) (.token hf (.absent .nil))
  · refine .bind .string fun text => .bind (.optional (N := Grown T S [.width]) ?_) fun width => ?_
    · exact .keywordThenNumber (by simp) rfl
    refine .bind .keyword fun _ => .andThen .word fun spinner => .done fun hs _ hw ht => ?_
    rcases hw with rfl | ⟨n, hn, rfl⟩
    · exact .of_fills (by decide) (.token ht (.skip rfl (.token hs .nil)))
    · exact .of_fills (by decide) (.token ht (.optionalNode hn (.token hs .nil)))

theorem flagAction {r : Rule} (hr : r ∈ rules) (hs : r.slots = [.one .word]) :
    Composed T S fl tk (Grammar.flagAction r) (Parts T S rules) :=
  .wordBehind hr hs

theorem replaceAction : Composed T S fl tk Grammar.replaceAction (Parts T S Rule.effects) := by
  refine .bind .eatKeyword fun drops => ?_
  have htail (r : Rule) (hr : r ∈ Rule.effects) (hs : r.slots = [.one .word, .one .word]) :
      Composed T S fl tk (do
        Grammar.keyword "item"
        let old ← Grammar.word "item id"
        Grammar.keyword "with"
        let new ← Grammar.word "replacement item id"
        return (r, [Element.token old, Element.token new])) (Parts T S Rule.effects) := by
    refine .bind .keyword fun _ => .bind .word fun old => .bind .keyword fun _ => ?_
    refine .andThen .word fun new => .done fun hn _ ho _ => .of_fills hr ?_
    rw [hs]
    exact .token ho (.token hn .nil)
  cases drops
  all_goals exact .given (htail _ (by decide) rfl)

theorem spawnAction : Composed T S fl tk Grammar.spawnAction (Parts T S Rule.effects) := by
  have hpair {r : Rule} {item t : Token} (hr : r ∈ Rule.effects)
      (hs : r.slots = [.one .word, .one .word]) (ht : T t ∧ t.isWord) (hi : T item ∧ item.isWord) :
      Parts T S Rule.effects (r, [.token item, .token t]) := by
    refine .of_fills hr ?_
    rw [hs]
    exact .token hi (.token ht .nil)
  refine .clause ?npc (.bind .oneOf fun _ => .andThen .word fun item => ?item)
  case npc =>
    refine .bind .word fun npc => .bind .keyword fun _ => .bind .keyword fun _ => ?_
    exact .andThen .word fun room => .done fun hr _ _ hn => hpair (by decide) rfl hr hn
  refine .clause ?_ (.clause ?_ (.unexpected _))
  · refine .bind .oneOf fun target => .bind .word fun id => .done fun ht _ hi _ => ?_
    exact .ite (hpair (by decide) rfl ht hi) (hpair (by decide) rfl ht hi)
  · refine .bind .oneOf fun target => .given (.ite (fun _ => ?_) fun _ => .ite (fun _ => ?_) fun _ => ?_)
    · exact .bind .word fun t => .done fun ht hi _ => hpair (by decide) rfl ht hi
    · exact .done fun hi _ => .word (by decide) rfl hi
    · exact .bind .keyword fun _ => .done fun _ hi _ => .word (by decide) rfl hi

theorem despawnAction : Composed T S fl tk Grammar.despawnAction (Parts T S Rule.effects) := by
  refine .bind .oneOf fun what => .map .word fun _ ht _ => .ite ?_ ?_
  all_goals exact .word (by decide) rfl ht

theorem awardAction : Composed T S fl tk Grammar.awardAction (Parts T S Rule.effects) := by
  refine .bind .keyword fun _ => .andThen .number fun amount => .alternative ?_ ?_
  · exact .map (.keywordThenString (List.mem_singleton_self _) rfl) fun _ hr ha _ =>
      .of_fills (by decide) (.token ha (.optionalNode hr .nil))
  · exact .done fun ha _ => .of_fills (by decide) (.token ha (.absent .nil))

theorem lockAction {itemRule exitRule : Rule} (hi : itemRule ∈ rules) (he : exitRule ∈ rules)
    (his : itemRule.slots = [.one .word]) (hes : exitRule.slots = [.one .word, .one .label]) :
    Composed T S fl tk (Grammar.lockAction itemRule exitRule) (Parts T S rules) := by
  refine .bind .oneOf fun what => .given (.ite (fun _ => ?_) fun _ => ?_)
  · exact .map .word fun _ ht => .word hi his ht
  · refine .bind .keyword fun _ => .bind .word fun room => .bind .keyword fun _ => ?_
    refine .andThen .label fun direction => .done fun hd _ hr _ => .of_fills he ?_
    rw [hes]
    exact .token hr (.token hd .nil)

theorem revealAction : Composed T S fl tk Grammar.revealAction (Parts T S Rule.effects) := by
  refine .bind .keyword fun _ => .bind .keyword fun _ => .bind .word fun origin => ?_
  refine .bind .keyword fun _ => .bind .word fun target => .bind .keyword fun _ => ?_
  exact .andThen .label fun direction => .done fun hd _ ht _ ho _ _ =>
    .of_fills (by decide) (.token ho (.token ht (.token hd .nil)))

theorem pushAction : Composed T S fl tk Grammar.pushAction (Parts T S Rule.effects) :=
  .bind .keyword fun _ => .given (.wordBehind (by decide) rfl)

theorem setNpcAction : Composed T S fl tk Grammar.setNpcAction (Parts T S Rule.effects) := by
  refine .bind .oneOf fun field => .andThen .word fun npc => .ite (fun _ => ?_) fun _ => ?_
  · exact .bind .boolean fun active => .done fun ha hn _ =>
      .of_fills (by decide) (.token hn (.token ha .nil))
  · exact .bind .mood fun state => .done fun hs hn _ =>
      .of_fills (by decide) (.token hn (.node hs .nil))

theorem setAction : Composed T S fl tk Grammar.setAction (Parts T S Rule.effects) := by
  refine .andThen .oneOf fun what => .given (.ite (fun _ => ?_) fun _ => .ite (fun _ => ?_)
    fun _ => .ite (fun _ => ?_) fun _ => ?_)
  · refine .bind .keyword fun _ => .bind .word fun item => .bind .string fun text => ?_
    exact .done fun ht hi _ => .of_fills (by decide) (.token hi (.token ht .nil))
  · exact .setNpcAction
  · refine .bind .keyword fun _ => .bind .keyword fun _ => .bind .word fun origin => ?_
    refine .bind .keyword fun _ => .bind .word fun target => .bind .string fun message => ?_
    exact .done fun hm ht _ ho _ _ => .of_fills (by decide) (.token ho (.token ht (.token hm .nil)))
  · refine .bind .keyword fun _ => .bind .word fun item => .bind .word fun state => ?_
    exact .done fun hs hi _ => .of_fills (by decide) (.token hi (.token hs .nil))

theorem npcAction : Composed T S fl tk Grammar.npcAction (Parts T S Rule.effects) := by
  refine .andThen .oneOf fun what => .given (.ite (fun _ => ?_) fun _ => .ite (fun _ => ?_) fun _ => ?_)
  · refine .bind .word fun npc => .bind .string fun quote => ?_
    exact .done fun hq hn => .of_fills (by decide) (.token hn (.token hq .nil))
  · exact .wordBehind (by decide) rfl
  · refine .bind .keyword fun _ => .bind .word fun npc => .bind .string fun reason => ?_
    exact .done fun hr hn _ => .of_fills (by decide) (.token hn (.token hr .nil))

theorem giveAction : Composed T S fl tk Grammar.giveAction (Parts T S Rule.effects) := by
  refine .bind .keyword fun _ => .bind .word fun item => .bind .keyword fun _ => ?_
  refine .bind .keyword fun _ => .bind .keyword fun _ => .bind .keyword fun _ => ?_
  exact .andThen .word fun npc => .done fun hn _ _ _ _ hi _ =>
    .of_fills (by decide) (.token hi (.token hn .nil))

theorem patchStatement : Composed T S fl true Grammar.patchStatement (Grown T S Rule.patches) := by
  refine .alternative ?name (.alternativeOf ?desc (.alternative ?text (.alternative ?portable
    (.alternative ?restricted (.alternative ?container ?ability)))))
  case name | text => exact .keywordThenString (by decide) rfl
  case desc => exact .description (by decide) rfl
  case portable | restricted => exact .keywordThenBoolean (by decide) rfl
  case container => exact .containerState (by decide) rfl
  case ability =>
    refine .grownBy fun _ => .bind .oneOf fun which => ?_
    refine .map (.ability (List.mem_singleton_self _)) fun _ h _ => .ite ?_ ?_
    all_goals exact .of_fills (by decide) (.node h .nil)

theorem modifyAction : Composed T S false tk Grammar.modifyAction (Parts T S [.actModifyItem]) := by
  refine .bind .keyword fun _ => .bind .word fun item => ?_
  exact .map (.blockOf .patchStatement) fun _ h hi _ =>
    .of_fills (by decide) (.token hi (.nodes h))

theorem onFalse : Composed T S fl tk Grammar.onFalse (Grown T S Rule.retries) := by
  refine .grownBy fun _ => .bind .keyword fun _ => .andThen .oneOf fun policy => .given (.given ?_)
  refine .ite (fun _ => ?_) fun _ => .ite (fun _ => ?_) fun _ => ?_
  · exact .done (.of_fills (by decide) .nil)
  · exact .done (.of_fills (by decide) .nil)
  · exact .map .number fun _ hn => .of_fills (by decide) (.token hn .nil)

variable {k : Nat} {guard body cond act : Parse Node}

theorem scheduleGuard (hg : Composed T S true true guard (GrownWithin k T S Rule.conditions)) :
    Composed T S true false (Grammar.scheduleGuard guard) fun x => x = (.actSchedule, []) ∨
      ∃ n, GrownWithin k T S Rule.conditions n ∧ (x = (.actScheduleIf, [.node n]) ∨
        ∃ r, Grown T S Rule.retries r ∧ x = (.actScheduleIf, [.node n, .node r])) := by
  refine .clause (.andThen hg fun n => .map (.optional .onFalse) fun retry hr hn => ?_) ?_
  · rcases hr with rfl | ⟨r, hr, rfl⟩
    · exact .inr ⟨n, hn, .inl rfl⟩
    · exact .inr ⟨n, hn, .inr ⟨r, hr, rfl⟩⟩
  · exact .done (.inl rfl)

theorem scheduleAction (hT : ∀ t, T t → t.IsSpelled)
    (hg : Composed T S true true guard (GrownWithin k T S Rule.conditions))
    (hb : Composed T S false true body fun n => Grown T S [.triggerBlock] n ∧ n.nesting < k) :
    Composed T S false true (Grammar.scheduleAction guard body)
      (PartsWithin k T S Rule.actions) := by
  refine .bind .oneOf fun anchor => .bind .number fun turns => .bind (.scheduleGuard hg) fun x => ?_
  refine .bind (.optional (N := Grown T S [.note]) ?_) fun notes => ?_
  · exact .keywordThenString (by simp) rfl
  refine .map hb fun b hbody hnotes hx ht ha => ?_
  have hanchor := (hT anchor ha.1).choice ha.2 (by decide)
  have hb' : Fills T S [.one (.node [.triggerBlock])] [.node b] := .node hbody.1 .nil
  -- What follows the guard begins with a note or with the body, none of which is a retry.
  have hrest : ∃ c cs, notes ++ [.node b] = c :: cs ∧ (Part.node Rule.retries).fits c = false ∧
      Fills T S [.optional (.node [.note]), .one (.node [.triggerBlock])] (c :: cs) := by
    rcases hnotes with rfl | ⟨n, hn, rfl⟩
    · exact ⟨_, _, rfl, hbody.1.misfits (by decide), .skip (hbody.1.misfits (by decide)) hb'⟩
    · exact ⟨_, _, rfl, hn.misfits (by decide), .optionalNode hn hb'⟩
  obtain ⟨c, cs, hcs, hmisfit, hfill⟩ := hrest
  have hend {r : Rule} (hr : !r.nests .note) : nestingIn r (c :: cs) ≤ k := by
    have hnote (n : Node) (hn : Grown T S [.note] n) : (Element.node n).nestingUnder r ≤ k :=
      (hn.within (by decide)).under (by simpa using hr)
    have hlast := Element.nestingUnder_of_lt (r := r) hbody.2
    rw [← hcs, nestingIn_le]
    rcases hnotes with rfl | ⟨n, hn, rfl⟩
    · simpa using hlast
    · simpa using ⟨hnote n hn, hlast⟩
  have htokens {r : Rule} {cs : List Element} (h : nestingIn r cs ≤ k) :
      nestingIn r (.token anchor :: .token turns :: cs) ≤ k := by
    simpa [nestingIn_cons_le] using h
  rcases hx with rfl | ⟨n, hn, rfl | ⟨r, hr, rfl⟩⟩ <;>
    simp only [List.cons_append, List.nil_append, hcs]
  · exact ⟨.of_fills (by decide) (.token ⟨ha.1, hanchor⟩ (.token ht hfill)), htokens (hend rfl)⟩
  · refine ⟨.of_fills (by decide)
      (.token ⟨ha.1, hanchor⟩ (.token ht (.node hn.1 (.skip hmisfit hfill)))), htokens ?_⟩
    exact nestingIn_cons_le.mpr ⟨hn.under rfl, hend rfl⟩
  · refine ⟨.of_fills (by decide)
      (.token ⟨ha.1, hanchor⟩ (.token ht (.node hn.1 (.optionalNode hr hfill)))), htokens ?_⟩
    have hretry := (hr.within (k := k) (by decide)).under (r := .actScheduleIf) (by decide)
    exact nestingIn_cons_le.mpr ⟨hn.under rfl, nestingIn_cons_le.mpr ⟨hretry, hend rfl⟩⟩

theorem actionOver (hT : ∀ t, T t → t.IsSpelled)
    (hg : ∀ T S, Composed T S true true guard (GrownWithin k T S Rule.conditions))
    (hb : ∀ T S, (∀ t, T t → t.IsSpelled) →
      Composed T S false true body fun n => Grown T S [.triggerBlock] n ∧ n.nesting < k) :
    Composed T S false true (Grammar.actionOver guard body) (GrownWithin k T S Rule.actions) := by
  have heffect {T S} {p : Rule × List Element} (h : Parts T S Rule.effects p) :
      PartsWithin k T S Rule.actions p := h.within (by decide) (by decide)
  refine .grownByWithin fun _ => .bind .oneOf fun head => .given ?_
  split
  case h_1 =>
    exact .map .string fun _ ht => heffect (.of_fills (by decide) (.token ht .nil))
  case h_2 => exact .mono .addAction fun _ => heffect
  case h_3 | h_4 | h_5 => exact .mono (.flagAction (by decide) rfl) fun _ => heffect
  case h_6 => exact .mono .replaceAction fun _ => heffect
  case h_7 => exact .mono .spawnAction fun _ => heffect
  case h_8 => exact .mono .despawnAction fun _ => heffect
  case h_9 => exact .mono .awardAction fun _ => heffect
  case h_10 | h_11 =>
    exact .mono (.lockAction (by decide) (by decide) rfl rfl) fun _ => heffect
  case h_12 => exact .mono .revealAction fun _ => heffect
  case h_13 => exact .mono .pushAction fun _ => heffect
  case h_14 => exact .mono .setAction fun _ => heffect
  case h_15 => exact .mono .npcAction fun _ => heffect
  case h_16 =>
    refine .bind .keyword fun _ => .map .string fun _ ht _ => heffect ?_
    exact .of_fills (by decide) (.token ht .nil)
  case h_17 | h_19 => exact .mono (.wordBehind (by decide) rfl) fun _ => heffect
  case h_18 => exact .mono .giveAction fun _ => heffect
  case h_20 => exact .mono .modifyAction fun _ h => h.within (by decide) (by decide)
  case h_21 => exact .scheduleAction (fun t h => hT t h.1) (hg _ _) (hb _ _ fun t h => hT t h.1)

theorem deed (ha : ∀ T S, (∀ t, T t → t.IsSpelled) →
    Composed T S false true act (GrownWithin k T S Rule.actions)) (hT : ∀ t, T t → t.IsSpelled) :
    Composed T S false true (Grammar.deed act) (GrownWithin k T S [.doStmt]) := by
  refine .grownWithin fun _ => .bind .keyword fun _ => ?_
  refine .map (ha _ _ fun t h => hT t h.1) fun n h _ => ⟨.of_fills (by simp) (.node h.1 .nil), ?_⟩
  exact nestingIn_cons_le.mpr ⟨h.under rfl, Nat.zero_le k⟩

theorem branch (hc : ∀ T S, Composed T S true true cond (GrownWithin k T S Rule.conditions))
    (ha : ∀ T S, (∀ t, T t → t.IsSpelled) →
      Composed T S false true act (GrownWithin k T S Rule.actions))
    (hT : ∀ t, T t → t.IsSpelled) :
    Composed T S false true (Grammar.branch cond act) (GrownWithin k T S [.condBlock]) := by
  refine .grownWithin fun _ => .bind .keyword fun _ => .andThen (hc _ _) fun condition => ?_
  refine .map (.block _ (N := GrownWithin k _ _ [.doStmt]) (.alternative
    (.deed ha fun t h => hT t h.1) (.alternative ?nested (.unexpected _)))) ?_
  case nested => exact .failHere (fun _ => .nestedConditional) (by simp)
  refine fun deeds hd hcond _ => ⟨.of_fills (by simp) (.node hcond.1 (.nodes fun n hn => (hd n hn).1)), ?_⟩
  have hdeeds := GrownWithin.nodes (r := .condBlock) hd (by decide)
  exact nestingIn_cons_le.mpr ⟨hcond.under rfl, hdeeds⟩

theorem statement (hc : ∀ T S, Composed T S true true cond (GrownWithin k T S Rule.conditions))
    (ha : ∀ T S, (∀ t, T t → t.IsSpelled) →
      Composed T S false true act (GrownWithin k T S Rule.actions))
    (hT : ∀ t, T t → t.IsSpelled) : Composed T S false true (do
      if ← Grammar.atKeyword "do" then Grammar.deed act else Grammar.branch cond act)
      (GrownWithin k T S Rule.statements) := by
  refine .alternative ?_ ?_
  · exact .mono (.deed ha hT) fun _ h => h.mono (by simp [Rule.statements])
  · exact .mono (.branch hc ha hT) fun _ h => h.mono (by simp [Rule.statements])

theorem statements (hc : ∀ T S, Composed T S true true cond (GrownWithin k T S Rule.conditions))
    (ha : ∀ T S, (∀ t, T t → t.IsSpelled) →
      Composed T S false true act (GrownWithin k T S Rule.actions))
    (hT : ∀ t, T t → t.IsSpelled) :
    Composed T S false true (Grammar.statements cond act) (GrownWithin k T S [.triggerBlock]) := by
  refine .grownWithin fun _ => .map (.blockOf (.statement hc ha fun t h => hT t h.1))
    fun ns h => ⟨.of_fills (by simp) (.nodes fun n hn => (h n hn).1), GrownWithin.nodes h rfl⟩

theorem action (levels : Nat) (hT : ∀ t, T t → t.IsSpelled) :
    Composed T S false true (Grammar.action levels) (GrownWithin levels T S Rule.actions) := by
  induction levels generalizing T S with
  | zero => exact .actionOver hT (fun _ _ => .condition _ _) fun _ _ _ => .tooDeep
  | succ levels ih =>
      refine .actionOver hT (fun _ _ => .condition _ _) fun _ _ hT => ?_
      refine .mono (.statements (fun _ _ => .condition _ _) (fun _ _ => ih) hT) fun _ h => ?_
      exact ⟨h.1, Nat.lt_succ_of_le h.2⟩

/-! ## Triggers -/

theorem triggerModifier_only : Composed T S fl tk (Grammar.node .onlyOnce do
    Grammar.keyword "only once"
    return []) (Grown T S Rule.modifiers) :=
  .grown (by decide) fun _ => .andThen .keyword fun _ => .done fun _ => .nil

theorem triggerModifier : Composed T S fl false Grammar.triggerModifier
    fun n? => ∀ n ∈ n?, Grown T S Rule.modifiers n := by
  have hsome (n : Node) (h : Grown T S Rule.modifiers n) :
      ∀ m ∈ some n, Grown T S Rule.modifiers m := by simpa using h
  refine .alternative (.map .triggerModifier_only hsome) (.alternative (.map ?_ hsome) ?_)
  · exact .keywordThenString (by decide) rfl
  · exact .done (by simp)

theorem triggerModifier_productive : Productive Grammar.triggerModifier := by
  have honly : Composed (fun _ => True) (fun _ => True) true true (Grammar.node .onlyOnce do
      Grammar.keyword "only once"
      return []) (Grown _ _ Rule.modifiers) := .triggerModifier_only
  have hnote : Composed (fun _ => True) (fun _ => True) true true
      (Grammar.keywordThenString .note "note") (Grown _ _ Rule.modifiers) :=
    .keywordThenString (by decide) rfl
  exact .alternative honly.advances (.alternative hnote.advances .none)

/-- What follows the modifiers of a trigger. -/
theorem triggerEnd (hT : ∀ t, T t → t.IsSpelled) {levels : Nat} {name : Token}
    {modifiers : List Node} : Composed T S false true (do
      let event ← Grammar.event
      let body ← Grammar.statements (Grammar.condition levels .standalone) (Grammar.action levels)
      return Element.token name :: modifiers.map .node ++ [.node event, .node body])
      fun cs => (∀ n ∈ modifiers, Grown T S Rule.modifiers n) → (T name ∧ name.isString) →
        PartsWithin levels T S [.triggerDef] (.triggerDef, cs) := by
  refine .bind (.event hT) fun event => ?_
  refine .map (.statements (fun _ _ => .condition _ _) (fun _ _ => .action _) hT)
    fun body hb he hm hn => ?_
  have hevent : (Part.node Rule.modifiers).fits (.node event) = false := he.misfits (by decide)
  refine ⟨.of_fills (by simp) ?_, ?_⟩
  · exact .token hn (.nodes_append hm (.many_none hevent (.node he (.node hb.1 .nil))))
  · have hmodifiers := GrownWithin.nodes (r := .triggerDef)
      (fun n hn => (hm n hn).within (k := levels) (by decide)) (by decide)
    have hevents := (he.within (k := levels) (by decide)).under (r := .triggerDef) (by decide)
    have hbody := hb.under (r := .triggerDef) (by decide)
    rw [nestingIn_le] at hmodifiers ⊢
    intro c hc
    simp only [List.cons_append, List.mem_cons, List.mem_append, List.not_mem_nil, or_false] at hc
    rcases hc with rfl | hc | rfl | rfl
    · simp
    · exact hmodifiers c hc
    · exact hevents
    · exact hbody

theorem trigger (levels : Nat) (hT : ∀ t, T t → t.IsSpelled) :
    Composed T S false true (Grammar.trigger levels) (GrownWithin levels T S [.triggerDef]) := by
  have hspelled : ∀ outer t, T t ∧ t.span.Inside outer → t.IsSpelled := fun _ t h => hT t h.1
  refine .grownWithin fun _ => .bind .keyword fun _ => .bind .string fun name => ?_
  refine .bind (.many .triggerModifier triggerModifier_productive) fun modifiers => ?_
  refine .bind .eatKeyword fun found => .ite (fun _ => ?_) fun _ => ?_
  · refine .bind (.unexpected _ (Q := fun _ => True)) fun _ => ?_
    exact (triggerEnd (hspelled _)).mono fun _ h _ _ hm hn _ => h hm hn
  · exact (triggerEnd (hspelled _)).mono fun _ h _ hm hn _ => h hm hn

/-! ## Definitions -/

end Composed

/-- A definition in which at most `levels` schedules and condition groups lie inside one another. -/
def definitionWithin (levels : Nat) : Parse Node := do
  if ← atKeyword "let" then roomSet
  else if ← atKeyword "room" then room
  else if ← atKeyword "item" then item
  else if ← atKeyword "npc" then npc
  else if ← atKeyword "trigger" then trigger levels
  else if ← atKeyword "spinner" then spinner
  else if ← atKeyword "goal" then goal
  else unexpected definitionStarters

theorem run_alternative_congr {α : Type} {c : Context} {s : State} {w : String}
    {p p' q q' : Parse α} (hp : p c s = p' c s) (hq : q c s = q' c s) :
    (do if ← atKeyword w then p else q) c s = (do if ← atKeyword w then p' else q') c s := by
  have hat : atKeyword w = looking fun r => r[0]?.any (·.isKeyword w) := rfl
  simp only [hat, run_bind, run_looking]
  split
  · exact hp
  · exact hq

/-- The levels of a definition are those its settings allow. -/
theorem definition_eq : definition = (do definitionWithin (← read).settings.maxNesting) := by
  funext c s
  have htrigger : (do trigger (← read).settings.maxNesting) c s =
      trigger c.settings.maxNesting c s := rfl
  exact run_alternative_congr rfl (run_alternative_congr rfl (run_alternative_congr rfl
    (run_alternative_congr rfl (run_alternative_congr htrigger rfl))))

namespace Composed

/-- How a definition is composed. -/
theorem definitionWithin (levels : Nat) (hT : ∀ t, T t → t.IsSpelled) :
    Composed T S false true (Grammar.definitionWithin levels)
      (GrownWithin levels T S Rule.definitions) := by
  refine .alternative (.mono .roomSet ?set) (.alternative (.mono .room ?room)
    (.alternative (.mono .item ?item) (.alternative (.mono (.npc hT) ?npc)
      (.alternative (.mono (.trigger levels hT) ?trigger) (.alternative (.mono .spinner ?spinner)
        (.alternative (.mono .goal ?goal) (.unexpected _)))))))
  case trigger => exact fun _ h => h.mono (by decide)
  all_goals exact fun _ h => (h.within (by decide)).mono (by decide)

theorem definition (hT : ∀ t, T t → t.IsSpelled) :
    Composed T S false true Grammar.definition (Grown T S Rule.definitions) := by
  rw [definition_eq]
  exact .within fun levels => .mono (.definitionWithin levels hT) fun _ h => h.1

end Composed

end Storyworld.Grammar
