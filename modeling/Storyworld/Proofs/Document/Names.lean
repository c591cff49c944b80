import Storyworld.Document

namespace Storyworld

/-! Which names a document uses: those of rooms, items, npcs, flags, goals, sets, abilities,
interactions, moods, timings and spinners. Directions are no names, and the name under which a
spinner is defined may be quoted, so it is told apart. -/

variable (I : String → Prop)

/-! ## Small parts -/

/-- Every name in it satisfies `I`. -/
def Mood.Named : Mood → Prop
  | builtin _ => True
  | custom name => I name.name

def Ability.Named (a : Ability) : Prop :=
  I a.name.name ∧ ∀ i ∈ a.target, I i.name

/-! ## Rooms -/

def RoomSet.Named (s : RoomSet) : Prop :=
  I s.name.name ∧ ∀ r ∈ s.rooms, I r.name

def Exit.Named (e : Exit) : Prop :=
  I e.target.name ∧ (∀ i ∈ e.requiredItems, I i.name) ∧ ∀ f ∈ e.requiredFlags, I f.name

namespace Overlay

def Condition.Named : Condition → Prop
  | flagSet flag | flagUnset flag | flagComplete flag => I flag.name
  | itemPresent item | itemAbsent item | playerHasItem item | playerMissingItem item => I item.name
  | npcPresent npc | npcAbsent npc => I npc.name
  | npcInState npc state => I npc.name ∧ state.Named I
  | itemInRoom item room => I item.name ∧ I room.name

def Subject.Named : Subject → Prop
  | item id => I id.name
  | npc id => I id.name

def Kind.Named : Kind → Prop
  | flagBinary flag _ _ => I flag.name
  | presencePair subject _ _ => subject.Named I
  | moodSet npc lines => I npc.name ∧ ∀ l ∈ lines, l.state.Named I
  | conditional conditions _ => ∀ x ∈ conditions, x.Named I

end Overlay

def Room.Named (r : Room) : Prop :=
  I r.id.name ∧ (∀ e ∈ r.exits, e.Named I) ∧ ∀ o ∈ r.overlays, o.kind.Named I

/-! ## Items -/

def Item.Location.Named : Item.Location → Prop
  | room id => I id.name
  | chest id => I id.name
  | npc id => I id.name
  | inventory | nowhere _ => True

def AbilityRequirement.Named (x : AbilityRequirement) : Prop :=
  I x.ability.name ∧ I x.interaction.name

def WhenConsumed.Named : WhenConsumed → Prop
  | despawn => True
  | replaceInventory replacement | replaceCurrentRoom replacement => I replacement.name

def Consumable.Named (x : Consumable) : Prop :=
  (∀ a ∈ x.consumeOn, a.Named I) ∧ x.whenConsumed.Named I

def Item.Named (i : Item) : Prop :=
  I i.id.name ∧ (∀ l ∈ i.location, l.Named I) ∧ (∀ a ∈ i.abilities, a.Named I) ∧
    (∀ x ∈ i.requires, x.Named I) ∧ ∀ x ∈ i.consumable, x.Named I

/-! ## Npcs -/

def Npc.Location.Named : Npc.Location → Prop
  | room id => I id.name
  | nowhere _ => True

def Movement.Named (m : Movement) : Prop :=
  (∀ r ∈ m.rooms, I r.name) ∧ ∀ t ∈ m.timing, I t.name

def Npc.Named (n : Npc) : Prop :=
  I n.id.name ∧ (∀ l ∈ n.location, l.Named I) ∧ (∀ m ∈ n.state, m.Named I) ∧
    (∀ m ∈ n.movement, m.Named I) ∧ ∀ d ∈ n.dialogue, d.state.Named I

/-! ## Goals -/

def Goal.Condition.Named : Goal.Condition → Prop
  | hasFlag flag | missingFlag flag | flagInProgress flag | flagComplete flag => I flag.name
  | hasItem item => I item.name
  | reachedRoom room => I room.name
  | goalComplete goal => I goal.name

def Goal.Named (g : Goal) : Prop :=
  I g.id.name ∧ g.start.Named I ∧ g.done.Named I ∧ ∀ x ∈ g.fail, x.Named I

/-! ## Triggers -/

def Event.Named : Event → Prop
  | always => True
  | enterRoom room | leaveRoom room => I room.name
  | takeItem item | dropItem item | openItem item | unlockItem item | lookAtItem item
  | ingest _ item => I item.name
  | talkToNpc npc => I npc.name
  | useItem item ability => I item.name ∧ ∀ a ∈ ability, I a.name
  | useItemOnItem tool target interaction => I tool.name ∧ I target.name ∧ I interaction.name
  | actOnItem interaction item => I interaction.name ∧ I item.name
  | giveToNpc item npc | takeFromNpc item npc => I item.name ∧ I npc.name
  | insertItemInto item container => I item.name ∧ I container.name

def Query.Named : Query → Prop
  | hasFlag flag | missingFlag flag | flagInProgress flag | flagComplete flag => I flag.name
  | hasItem item | missingItem item => I item.name
  | hasVisited room | playerInRoom room => I room.name
  | withNpc npc => I npc.name
  | npcHasItem npc item => I npc.name ∧ I item.name
  | npcInState npc state => I npc.name ∧ state.Named I
  | containerHasItem container item => I container.name ∧ I item.name
  | chance _ => True
  | ambient spinner rooms => I spinner.name ∧ ∀ l ∈ rooms, ∀ r ∈ l, I r.name
  | inRooms rooms => ∀ r ∈ rooms, I r.name

namespace Condition

mutual

def Named : Condition → Prop
  | single query => query.Named I
  | any members | all members => AllNamed members

def AllNamed : List Condition → Prop
  | [] => True
  | m :: ms => m.Named ∧ AllNamed ms

end

theorem allNamed_iff {ms : List Condition} : AllNamed I ms ↔ ∀ m ∈ ms, m.Named I := by
  induction ms with
  | nil => simp [AllNamed]
  | cons m ms ih => simp [AllNamed, ih]

end Condition

def ItemPatch.Named (p : ItemPatch) : Prop :=
  (∀ a ∈ p.addAbilities, a.Named I) ∧ ∀ a ∈ p.removeAbilities, a.Named I

def Effect.Named : Effect → Prop
  | showText _ | denyRead _ => True
  | modifyItem item patch => I item.name ∧ patch.Named I
  | addFlag flag | removeFlag flag | resetFlag flag | advanceFlag flag | addSeqFlag flag _ =>
    I flag.name
  | addWedge spinner _ _ | spinnerMessage spinner => I spinner.name
  | replaceItem old new | replaceDropItem old new => I old.name ∧ I new.name
  | spawnItemIntoRoom item room => I item.name ∧ I room.name
  | spawnItemIntoContainer item container => I item.name ∧ I container.name
  | spawnItemInInventory item | spawnItemInCurrentRoom item | despawnItem item | lockItem item
  | unlockItem item | setItemDescription item _ | restrictItem item | setContainerState item _ =>
    I item.name
  | spawnNpcIntoRoom npc room => I npc.name ∧ I room.name
  | despawnNpc npc | npcSays npc _ | npcRandomDialogue npc | npcRefuseItem npc _
  | setNpcActive npc _ => I npc.name
  | awardPoints _ _ => True
  | lockExit origin _ | unlockExit origin _ => I origin.name
  | revealExit origin target _ | setBarredMessage origin target _ => I origin.name ∧ I target.name
  | pushPlayerTo room => I room.name
  | setNpcState npc state => I npc.name ∧ state.Named I
  | giveItemToPlayer item npc => I item.name ∧ I npc.name

mutual

def Action.Named : Action → Prop
  | .effect e => e.Named I
  | .schedule _ _ guard _ body =>
    (∀ g ∈ guard, g.condition.Named I) ∧ Statement.AllNamed body

def Deed.Named : Deed → Prop
  | .mk action _ => action.Named

def Deed.AllNamed : List Deed → Prop
  | [] => True
  | d :: ds => d.Named ∧ Deed.AllNamed ds

def Statement.Named : Statement → Prop
  | .perform deed => deed.Named
  | .branch condition deeds _ => condition.Named I ∧ Deed.AllNamed deeds

def Statement.AllNamed : List Statement → Prop
  | [] => True
  | s :: ss => s.Named ∧ Statement.AllNamed ss

end

theorem Deed.allNamed_iff {ds : List Deed} : Deed.AllNamed I ds ↔ ∀ d ∈ ds, d.Named I := by
  induction ds with
  | nil => simp [Deed.AllNamed]
  | cons d ds ih => simp [Deed.AllNamed, ih]

theorem Statement.allNamed_iff {ss : List Statement} :
    Statement.AllNamed I ss ↔ ∀ s ∈ ss, s.Named I := by
  induction ss with
  | nil => simp [Statement.AllNamed]
  | cons s ss ih => simp [Statement.AllNamed, ih]

def Trigger.Named (t : Trigger) : Prop :=
  t.event.Named I ∧ ∀ s ∈ t.block, s.Named I

/-! ## Definitions -/

/-- Every name in a definition satisfies `I`, the name under which a spinner is defined apart. -/
def Definition.Named : Definition → Prop
  | roomSet d => d.Named I
  | room d => d.Named I
  | item d => d.Named I
  | npc d => d.Named I
  | trigger d => d.Named I
  | spinner _ => True
  | goal d => d.Named I

/-- The name under which a spinner is defined. -/
def Definition.spinnerName? : Definition → Option String
  | spinner d => some d.id.name
  | _ => none

end Storyworld
