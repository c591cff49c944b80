import Mathlib.Logic.Function.Iterate
import Storyworld.Proofs.Grammar.Expected
import Storyworld.Proofs.Grammar.Locality

namespace Storyworld.Grammar

/-! A source is read a second time with another token where the first reading ended. Up to that
token both readings do the same, and a token that was expected there is taken. -/

variable {α β : Type} {I : State → Prop} {c : Context} {s s' : State} {tk : Bool} {n : Nat}

theorem run_fork {p q : Parse α} (F : List Token → Bool) :
    (do if ← looking F then p else q) c s = if F s.rest then p c s else q c s := by
  rw [run_bind, run_looking]
  exact run_ite _ p q

/-! ## What every parser keeps -/

/-- What holds of parsers wherever they are used. -/
structure Regular (taking : Bool) (p : Parse α) : Prop where
  advances : Advances taking p
  keeps : ∀ {I c}, Lasting I c → Keeps I c p
  ahead : FaultsAhead p

namespace Regular

variable {p : Parse α} {f : α → Parse β}

theorem weaken {tp : Bool} (hp : Regular tp p) (h : tk → tp) : Regular tk p :=
  ⟨hp.advances.weaken h, hp.keeps, hp.ahead⟩

theorem pure (a : α) : Regular false (Pure.pure a : Parse α) :=
  ⟨.pure a, fun _ => .pure a, .pure a⟩

theorem bind {j k : Bool} (hp : Regular j p) (hf : ∀ a, Regular k (f a)) :
    Regular (j || k) (p >>= f) :=
  ⟨hp.advances.bind fun a => (hf a).advances,
    fun hI => (hp.keeps hI).bind fun a => (hf a).keeps hI, hp.ahead.bind fun a => (hf a).ahead⟩

theorem map {g : α → β} (hp : Regular tk p) : Regular tk (g <$> p) :=
  ⟨hp.advances.map, fun hI => (hp.keeps hI).map, hp.ahead.map⟩

theorem look (f : List Token → Bool) : Regular false (looking f) :=
  ⟨.look f, fun _ => .look f, .look f⟩

theorem fork {F : List Token → Bool} {q : Parse α} (hp : Regular tk p) (hq : Regular tk q) :
    Regular tk (do if ← looking F then p else q) :=
  ((look F).bind (k := tk) fun found => by cases found; exacts [hq, hp]).weaken (by simp)

theorem eat (f : List Token → Bool) : Regular false (eatWhen f) :=
  ⟨.eat f, fun hI => .eat hI f, .eat f⟩

theorem take (es : List String) (accept : Token → Bool) : Regular true (expect es accept) :=
  ⟨.take es accept, fun hI => .take hI es accept, .take es accept⟩

theorem number : Regular true Grammar.number :=
  ⟨.number, .number, .number⟩

theorem unexpected (es : List String) : Regular tk (Grammar.unexpected es : Parse α) :=
  ⟨.fails fun _ _ => run_unexpected es,
    fun hI => .fails (fun _ => run_unexpected es) fun hs => hI.unexpected hs es, .unexpected es⟩

theorem failHere (cause : Nat → SyntaxFault.Cause) (hc : ∀ n, (cause n).expected = []) :
    Regular tk (Grammar.failHere cause : Parse α) :=
  ⟨.fails fun _ _ => run_failHere cause,
    fun hI => .fails (fun _ => run_failHere cause) fun hs => hI.fault _ hs, .failHere cause hc⟩

theorem node {parts : Parse (Rule × List Element)} (hp : Regular tk parts) :
    Regular tk (nodeBy parts) :=
  ⟨hp.advances.node, fun hI => (hp.keeps hI).node, hp.ahead.node⟩

theorem within {f : Nat → Parse α} (hf : ∀ levels, Regular tk (f levels)) :
    Regular tk (do f (← read).settings.maxNesting) :=
  ⟨⟨fun h => (hf _).advances.ok h, fun h => (hf _).advances.shorter h,
      fun h => (hf _).advances.error h⟩,
    fun hI => ⟨((hf _).keeps hI).ok, ((hf _).keeps hI).error⟩, fun _ _ _ _ h => (hf _).ahead h⟩

theorem many {step : Parse (Option α)} (hp : Regular false step) :
    Regular false (Grammar.many step) :=
  ⟨hp.advances.many, fun hI => (hp.keeps hI).many, hp.ahead.many⟩

theorem round {statement : Parse Node} (hp : Regular true statement) (depth : Nat)
    (starters : List String) : Regular false (Grammar.round depth starters statement) :=
  ⟨hp.advances.round depth starters, fun hI => .round hI (hp.keeps hI) depth starters,
    hp.ahead.round depth starters⟩

end Regular

/-! ## Where a run ends -/

/-- A run lands in a state that satisfies `I`. A fault it ends with counts as if it were recorded. -/
def Lands (I : State → Prop) : EStateM.Result SyntaxFault State α → Prop
  | .ok _ s => I s
  | .error fault s => I (s.faulted fault)

theorem Keeps.lands {p : Parse α} (hp : Keeps I c p) (hs : I s) : Lands I (p c s) := by
  cases h : p c s with
  | ok a s' => exact hp.ok hs h
  | error fault s' => exact hp.error hs h

namespace Lands

theorem bind {p : Parse α} {f : α → Parse β} (h : Lands I (p c s)) (hf : ∀ a, Keeps I c (f a)) :
    Lands I ((p >>= f) c s) := by
  rw [run_bind]
  cases hps : p c s with
  | ok a s' =>
      rw [hps] at h
      exact (hf a).lands h
  | error fault s' => rwa [hps] at h

theorem map {p : Parse α} {g : α → β} (h : Lands I (p c s)) : Lands I ((g <$> p) c s) :=
  h.bind fun a => Keeps.pure (g a)

theorem node {parts : Parse (Rule × List Element)} (h : Lands I (parts c s)) :
    Lands I (nodeBy parts c s) := by
  rw [run_nodeBy]
  cases hps : parts c s with
  | ok x s' => rwa [hps] at h
  | error fault s' => rwa [hps] at h

end Lands

/-- Where the tokens left satisfy `F`, a parser gets past `n` of them. -/
def Commits (n : Nat) (F : List Token → Bool) (p : Parse α) : Prop :=
  ∀ ⦃I c⦄, Lasting I c → ∀ ⦃s : State⦄, F s.rest → I (State.advance^[n] s) → Lands I (p c s)

/-- The test of the next token. -/
def next (B : Token → Bool) (r : List Token) : Bool :=
  r[0]?.any B

theorem next_iff {B : Token → Bool} {r : List Token} :
    next B r ↔ ∃ t rest, r = t :: rest ∧ B t := by
  cases r <;> simp [next]

theorem next_eq_false {A B : Token → Bool} {r : List Token} (h : next B r = false)
    (hAB : ∀ t, A t → B t) : next A r = false := by
  cases r with
  | nil => rfl
  | cons t rest =>
      have ht : B t = false := by simpa [next] using h
      have hA : A t = false := by
        cases hA : A t with
        | false => rfl
        | true => rw [hAB t hA] at ht; cases ht
      simpa [next] using hA

theorem expect_of_next {es : List String} {accept : Token → Bool} (h : next accept s.rest = false) :
    expect es accept c s = .error (s.unexpected c es) s := by
  rw [run_expect]
  cases hr : s.rest with
  | nil => rfl
  | cons t rest =>
      have ht : accept t = false := by simpa [next, hr] using h
      simp [ht]

namespace Commits

variable {p q : Parse α} {f : α → Parse β} {F F' : List Token → Bool} {B B' : Token → Bool}

theorem mono (hp : Commits n F p) (h : ∀ r, F' r → F r) : Commits n F' p :=
  fun _ _ hI _ hr => hp hI (h _ hr)

theorem bind (hp : Commits n F p) (hf : ∀ a, Regular tk (f a)) : Commits n F (p >>= f) :=
  fun _ _ hI _ hr hs => (hp hI hr hs).bind fun a => (hf a).keeps hI

theorem map {g : α → β} (hp : Commits n F p) : Commits n F (g <$> p) :=
  fun _ _ hI _ hr hs => (hp hI hr hs).map

theorem node {parts : Parse (Rule × List Element)} (hp : Commits n F parts) :
    Commits n F (nodeBy parts) :=
  fun _ _ hI _ hr hs => (hp hI hr hs).node

theorem take {es : List String} {accept : Token → Bool} :
    Commits 1 (next accept) (expect es accept) := by
  intro I c hI s hr hs
  obtain ⟨t, rest, hrest, ht⟩ := next_iff.mp hr
  rw [expect_of_cons hrest ht]
  exact hs

/-- A token that is sure to be taken, and the parser behind it. -/
theorem behind (hp : ∀ c s, F s.rest → ∃ a, p c s = .ok a s.advance) (hf : ∀ a, Commits n F' (f a))
    (hF : ∀ r, F r → F' r.tail) : Commits (n + 1) F (p >>= f) := by
  intro I c hI s hr hs
  obtain ⟨a, ha⟩ := hp c s hr
  rw [run_bind, ha]
  exact hf a hI (by simpa [advance_rest] using hF s.rest hr) hs

/-- A test that takes nothing decides between two parsers. -/
theorem fork {G : List Token → Bool} (hp : Commits n (fun r => F r && G r) p)
    (hq : Commits n (fun r => F r && !G r) q) : Commits n F (do if ← looking G then p else q) := by
  intro I c hI s hr hs
  rw [run_fork]
  cases hG : G s.rest with
  | true => exact hp hI (by simp [hr, hG]) hs
  | false => exact hq hI (by simp [hr, hG]) hs

end Commits

/-! ## The two readings -/

/-- A source whose reading ended in front of the tokens `left`, and what it is read as a second
time: there `token` comes next, and `behind` after it. Both readings stop at the first fault. -/
structure Repair where
  found : Context
  repaired : Context
  left : List Token
  token : Token
  behind : List Token
  settings : repaired.settings = found.settings
  impatient : found.settings.patience ≤ 1
  kinds : behind.map (·.kind) = left.tail.map (·.kind)

/-- Repeating a step that takes a token is one step and then repeating it. -/
theorem many_eq {step : Parse (Option α)} (hp : Productive step) : many step = (do
    match ← step with
    | none => return []
    | some a => return a :: (← many step)) := by
  funext c s
  rw [run_many_step hp, run_bind]
  cases step c s with
  | error fault s' => rfl
  | ok a? s' =>
      cases a? with
      | none => rfl
      | some a =>
          simp only [run_bind]
          cases many step c s' <;> rfl

theorem lasting_length (k : Nat) (c : Context) : Lasting (fun s => s.rest.length < k) c where
  advance := fun {s} hs => by
    rw [advance_rest, List.length_tail]
    omega
  log := fun _ hs => hs
  fault := fun _ hs => hs

theorem iterate_advance_rest (n : Nat) (s : State) :
    (State.advance^[n] s).rest = s.rest.drop n := by
  induction n generalizing s with
  | zero => rfl
  | succ n ih => rw [Function.iterate_succ_apply, ih, advance_rest, List.drop_tail]

theorem iterate_advance_faults (n : Nat) (s : State) :
    (State.advance^[n] s).faults = s.faults := by
  induction n generalizing s with
  | zero => rfl
  | succ n ih => rw [Function.iterate_succ_apply, ih, advance_faults]

namespace Repair

variable {m : Repair}

/-- A state of the first reading, told by the tokens before the end of that reading. -/
def old (m : Repair) (s : State) : State :=
  s.before m.left

/-- The same state of the second reading. -/
def new (m : Repair) (s : State) : State :=
  s.before (m.token :: m.behind)

/-- Reading got past the new token, and its faults lie behind that token. -/
structure Past (m : Repair) (s : State) : Prop where
  rest : s.rest <:+ m.behind
  faults : ∀ f ∈ s.faults, f.span = m.repaired.eof ∨ ∃ t ∈ m.behind, f.span = t.span

theorem past_lasting : Lasting m.Past m.repaired where
  advance := fun {s} hs => ⟨by rw [advance_rest]; exact (List.tail_suffix _).trans hs.rest,
    by simpa using hs.faults⟩
  log := fun _ hs => ⟨hs.rest, hs.faults⟩
  fault := fun {s} cause hs => by
    refine ⟨hs.rest, fun f hf => ?_⟩
    rcases List.mem_append.mp hf with hf | hf
    · exact hs.faults f hf
    · obtain rfl := List.mem_singleton.mp hf
      cases hr : s.rest with
      | nil => exact .inl (by simp [State.place, hr])
      | cons t rest => exact .inr ⟨t, hs.rest.subset (by simp [hr]), by simp [State.place, hr]⟩

/-- A state of the first reading that is not past its end. -/
theorem exists_old (h : m.left <:+ s.rest) : ∃ s₀, s = m.old s₀ := by
  obtain ⟨u, hu⟩ := h
  exact ⟨{ s with rest := u }, by simp [old, State.before, hu]⟩

theorem left_suffix : m.left <:+ (m.old s).rest :=
  List.suffix_append _ _

theorem old_injective : Function.Injective m.old := by
  rintro ⟨rest, last, depth, faults, log⟩ ⟨rest', last', depth', faults', log'⟩ h
  simpa [old, State.before] using h

theorem old_rest_eq_left (h : (m.old s).rest = m.left) : s.rest = [] := by
  simpa [old, State.before] using h

/-- A token that the first reading takes before its end is taken in the second one too. -/
theorem taken {t : Token} {rest : List Token} (hr : (m.old s).rest = t :: rest)
    (h : (m.old s).advance = m.old s') :
    ∃ rest', (m.new s).rest = t :: rest' ∧ (m.new s).advance = m.new s' ∧
      s'.faults = s.faults := by
  cases hs : s.rest with
  | nil =>
      have hlen := congrArg (fun s : State => s.rest.length) h
      simp [advance_rest, old, State.before, hs] at hlen hr
      simp [hr] at hlen
      omega
  | cons u rest' =>
      have hne : s.rest ≠ [] := by simp [hs]
      obtain rfl : u = t := by simpa [old, State.before_rest hs] using congrArg List.head? hr
      rw [old, State.before_advance hne] at h
      obtain rfl := old_injective h
      exact ⟨_, State.before_rest hs, State.before_advance hne, by simp⟩

theorem new_rest (h : s.rest = []) : (m.new s).rest = m.token :: m.behind := by
  simp [new, State.before, h]

/-- The second reading is past the new token once that token is taken. -/
theorem past_of_iterate (hs : s.faults = []) (hn : s.rest.length < n) :
    m.Past (State.advance^[n] (m.new s)) := by
  refine ⟨?_, by simp [iterate_advance_faults, new, State.before, hs]⟩
  obtain ⟨k, rfl⟩ := Nat.exists_eq_add_of_lt hn
  have hrest : (m.new s).rest = (s.rest ++ [m.token]) ++ m.behind := by simp [new, State.before]
  have hlen : (s.rest ++ [m.token]).length + k = s.rest.length + k + 1 := by
    rw [List.length_append, List.length_singleton]
    omega
  rw [iterate_advance_rest, hrest, ← hlen, List.drop_length_add_append]
  exact List.drop_suffix k m.behind

theorem past_of_taken (hs : s.faults = []) (h : s.rest = []) : m.Past (m.new s).advance :=
  past_of_iterate (n := 1) hs (by simp [h])

end Repair

/-- How a run of the second reading goes beside one of the first: it does the same, or it gets past
the new token; and it does get past that token if the first run ended with a fault in front of it
that offers the token. -/
structure Mirrors (m : Repair) (r r' : EStateM.Result SyntaxFault State α) : Prop where
  ok : ∀ {a s'}, r = .ok a (m.old s') → s'.faults = [] ∧ r' = .ok a (m.new s') ∨ Lands m.Past r'
  error : ∀ {fault s'}, r = .error fault s' → s'.rest = m.left → fault.Offers m.token →
    Lands m.Past r'

/-- A parser that does not mislead: what it offers where it fails, it takes. `X` tells that the new
token is not for this parser, if that is where it begins. -/
structure Candid (m : Repair) (taking : Bool) (X : Prop) (p : Parse α) : Prop
    extends Regular taking p where
  mirrors : ∀ {s : State}, s.faults = [] → (s.rest = [] → ¬X) →
    Mirrors m (p m.found (m.old s)) (p m.repaired (m.new s))

/-- A candid parser that takes the next token if that satisfies `B`. -/
structure Opening (m : Repair) (B : Token → Bool) (X : Prop) (p : Parse α) : Prop
    extends Candid m true X p where
  begins : Commits 1 (next B) p

variable {m : Repair} {X Y : Prop} {p q : Parse α} {f : α → Parse β} {B B' : Token → Bool}

namespace Mirrors

variable {r r' : EStateM.Result SyntaxFault State α}

theorem of_past (h : Lands m.Past r') : Mirrors m r r' :=
  ⟨fun _ => .inr h, fun _ _ _ => h⟩

theorem same {s : State} (hs : s.faults = []) (a : α) :
    Mirrors m (.ok a (m.old s)) (.ok a (m.new s)) := by
  refine ⟨fun {b s'} h => ?_, fun h _ _ => by cases h⟩
  obtain ⟨rfl, hsame⟩ : a = b ∧ m.old s = m.old s' := by simpa using h
  obtain rfl := Repair.old_injective hsame
  exact .inl ⟨hs, rfl⟩

/-- A token before the end of the first reading is taken in both. -/
theorem taken {s : State} (hs : s.faults = []) (hne : s.rest ≠ []) (a : α) :
    Mirrors m (.ok a (m.old s).advance) (.ok a (m.new s).advance) := by
  rw [Repair.old, Repair.new, State.before_advance hne, State.before_advance hne]
  exact .same (s := s.advance) (by simpa using hs) a

/-- A run that got past the end of the first reading does not matter. -/
theorem of_short (h : Lands (fun s => s.rest.length < m.left.length) r) : Mirrors m r r' := by
  constructor
  · rintro a s' rfl
    have hlt : (m.old s').rest.length < m.left.length := h
    exact absurd hlt (Nat.not_lt.mpr Repair.left_suffix.length_le)
  · rintro fault s' rfl hrest _
    have hlt : s'.rest.length < m.left.length := h
    rw [hrest] at hlt
    exact absurd hlt (Nat.lt_irrefl _)

/-- A fault before the end of the first reading does not matter. -/
theorem of_early {fault : SyntaxFault} (h : m.left.length < s'.rest.length) :
    Mirrors m (.error fault s') r' := by
  refine ⟨fun h => (by cases h), fun heq hrest _ => ?_⟩
  cases heq
  rw [hrest] at h
  exact absurd h (Nat.lt_irrefl _)

theorem bind {k : Bool} {f : α → Parse β} {s : State}
    (hp : Mirrors m (p m.found (m.old s)) (p m.repaired (m.new s)))
    (hreg : ∀ a, Regular k (f a))
    (hf : ∀ a s₁, s₁.faults = [] → p m.found (m.old s) = .ok a (m.old s₁) →
      Mirrors m (f a m.found (m.old s₁)) (f a m.repaired (m.new s₁)) ∨
        Lands m.Past (p m.repaired (m.new s))) :
    Mirrors m ((p >>= f) m.found (m.old s)) ((p >>= f) m.repaired (m.new s)) := by
  have hpast (h : Lands m.Past (p m.repaired (m.new s))) :
      Lands m.Past ((p >>= f) m.repaired (m.new s)) :=
    h.bind fun a => (hreg a).keeps Repair.past_lasting
  -- A run of `f a` that counts begins before the end of the first reading.
  have hbehind {a s₁} (hps : p m.found (m.old s) = .ok a s₁) (hsuffix : m.left <:+ s₁.rest) :
      Mirrors m (f a m.found s₁) ((p >>= f) m.repaired (m.new s)) := by
    obtain ⟨s₁, rfl⟩ := Repair.exists_old hsuffix
    rcases hp.ok hps with ⟨hs₁, hsame⟩ | hlands
    · rcases hf a s₁ hs₁ hps with hmirrors | hlands
      · rwa [run_bind, hsame]
      · exact .of_past (hpast hlands)
    · exact .of_past (hpast hlands)
  rw [run_bind]
  cases hps : p m.found (m.old s) with
  | error fault s₁ =>
      refine ⟨fun h => (by cases h), fun h hrest hoffers => ?_⟩
      cases h
      exact hpast (hp.error hps hrest hoffers)
  | ok a s₁ =>
      refine ⟨fun h => ?_, fun h hrest hoffers => ?_⟩
      · exact (hbehind hps (Repair.left_suffix.trans ((hreg a).advances.ok h).rest)).ok h
      · exact (hbehind hps (hrest ▸ ((hreg a).advances.error h).rest)).error h hrest hoffers

end Mirrors

namespace Candid

theorem weaken {k : Bool} (hp : Candid m tk X p) (h : k → tk) : Candid m k X p :=
  ⟨hp.toRegular.weaken h, hp.mirrors⟩

theorem mono (hp : Candid m tk X p) (h : X → Y) : Candid m tk Y p :=
  ⟨hp.toRegular, fun hs hX => hp.mirrors hs fun hr hx => hX hr (h hx)⟩

theorem pure (a : α) : Candid m false X (Pure.pure a : Parse α) :=
  ⟨.pure a, fun hs _ => .same hs a⟩

theorem bind (hp : Candid m false X p) (hf : ∀ a, Candid m tk False (f a)) :
    Candid m tk X (p >>= f) := by
  have hreg (a : α) : Regular tk (f a) := (hf a).toRegular
  refine ⟨(hp.toRegular.bind hreg).weaken (by simp), fun hs hX => ?_⟩
  exact (hp.mirrors hs hX).bind hreg fun a s₁ hs₁ _ => .inl ((hf a).mirrors hs₁ fun _ hx => hx)

theorem andThen (hp : Candid m true X p) (hf : ∀ a, Candid m false False (f a)) :
    Candid m tk X (p >>= f) :=
  ⟨(hp.toRegular.bind fun a => (hf a).toRegular).weaken fun _ => rfl,
    (bind (hp.weaken (by simp)) hf).mirrors⟩

theorem map {g : α → β} (hp : Candid m tk X p) : Candid m tk X (g <$> p) :=
  ⟨hp.toRegular.map, (bind (hp.weaken (by simp)) fun a => pure (g a)).mirrors⟩

theorem ite {b : Prop} [Decidable b] (hp : b → Candid m tk X p) (hq : ¬b → Candid m tk X q) :
    Candid m tk X (if b then p else q) := by
  split
  · exact hp ‹_›
  · exact hq ‹_›

theorem take {es : List String} {accept : Token → Bool}
    (h : ∀ e ∈ es, (Expectation.ofEntry e).admits m.token → accept m.token ∨ X) :
    Candid m tk X (expect es accept) := by
  refine weaken ⟨.take es accept, fun {s} hs hX => ⟨fun hrun => ?_, fun hrun hrest hoffers => ?_⟩⟩
    fun _ => rfl
  · obtain ⟨rest, hr, ht, hs'⟩ := expect_ok hrun
    obtain ⟨rest', hnew, hadvance, hfaults⟩ := Repair.taken hr hs'.symm
    exact .inl ⟨hfaults.trans hs, by rw [expect_of_cons hnew ht, hadvance]⟩
  · obtain ⟨rfl, rfl⟩ := expect_error hrun
    have hnil := Repair.old_rest_eq_left hrest
    obtain ⟨e, he, hadmits⟩ := hoffers
    rw [expected_unexpected] at he
    rw [expect_of_cons (Repair.new_rest hnil) ((h e he hadmits).resolve_right (hX hnil))]
    exact Repair.past_of_taken hs hnil

theorem number : Candid m tk X Grammar.number := by
  refine weaken ⟨.number, fun {s} hs hX => ⟨fun hrun => ?_, fun hrun hrest hoffers => ?_⟩⟩
    fun _ => rfl
  · obtain ⟨rest, hr, hk, hw, hs'⟩ := number_ok hrun
    obtain ⟨rest', hnew, hadvance, hfaults⟩ := Repair.taken hr hs'.symm
    exact .inl ⟨hfaults.trans hs, by rw [number_of_cons hnew hk hw, hadvance]⟩
  · obtain ⟨e, he, hadmits⟩ := hoffers
    obtain ⟨rfl, rfl⟩ | ⟨t, rest, -, rfl, -⟩ := number_error hrun
    · have hnil := Repair.old_rest_eq_left hrest
      rw [expected_unexpected, List.mem_singleton] at he
      subst he
      obtain ⟨hk, hw⟩ : m.token.kind = .number ∧ _ := by
        have hentry : Expectation.ofEntry "number" = .number := rfl
        simpa [hentry, Expectation.admits] using hadmits
      rw [number_of_cons (Repair.new_rest hnil) hk hw]
      exact Repair.past_of_taken hs hnil
    · cases he

/-- A parser that takes nothing and fails; `X` says of every token it offers that it is not for this
parser. -/
theorem fails {g : Context → State → SyntaxFault} (hp : Regular tk p)
    (h : ∀ c s, p c s = .error (g c s) s) (hX : ∀ c s, (g c s).Offers m.token → X) :
    Candid m tk X p := by
  refine ⟨hp, fun {s} _ hX' => ⟨fun hrun => ?_, fun hrun hrest hoffers => ?_⟩⟩
  · rw [h] at hrun
    cases hrun
  · rw [h] at hrun
    cases hrun
    exact absurd (hX _ _ hoffers) (hX' (Repair.old_rest_eq_left hrest))

theorem unexpected {es : List String}
    (h : ∀ e ∈ es, (Expectation.ofEntry e).admits m.token → X) :
    Candid m tk X (Grammar.unexpected es : Parse α) := by
  refine fails (.unexpected es) (fun _ _ => run_unexpected es) fun c s hoffers => ?_
  obtain ⟨e, he, hadmits⟩ := hoffers
  exact h e (expected_unexpected (c := c) es ▸ he) hadmits

theorem failHere (cause : Nat → SyntaxFault.Cause) (hc : ∀ n, (cause n).expected = []) :
    Candid m tk X (Grammar.failHere cause : Parse α) := by
  refine fails (.failHere cause hc) (fun _ _ => run_failHere cause) fun c s hoffers => ?_
  obtain ⟨e, he, -⟩ := hoffers
  simp [hc] at he

theorem node {parts : Parse (Rule × List Element)} (hp : Candid m true X parts) :
    Candid m tk X (nodeBy parts) := by
  refine weaken ⟨hp.toRegular.node, fun {s} hs hX => ?_⟩ fun _ => rfl
  have hmirrors := hp.mirrors hs hX
  refine ⟨fun h => ?_, fun h hrest hoffers => ?_⟩
  · rw [run_nodeBy] at h
    cases hrun : parts m.found (m.old s) with
    | error fault s₁ => simp [hrun] at h
    | ok x s₁ =>
        simp only [hrun, EStateM.Result.ok.injEq] at h
        obtain ⟨rfl, rfl⟩ := h
        have hne : s.rest ≠ [] := by
          intro hnil
          have hlt := hp.advances.shorter hrun rfl
          simp only [Repair.old, State.before, hnil, List.length_append, List.length_nil] at hlt
          omega
        rcases hmirrors.ok hrun with ⟨hs', hsame⟩ | hlands
        · refine .inl ⟨hs', ?_⟩
          have hplace : (m.new s).place m.repaired = (m.old s).place m.found :=
            (State.before_place (c := m.found) hne).trans (State.before_place hne).symm
          rw [run_nodeBy, hsame, ← hplace]
          rfl
        · exact .inr hlands.node
  · rw [run_nodeBy] at h
    cases hrun : parts m.found (m.old s) with
    | ok x s₁ => simp [hrun] at h
    | error fault' s₁ =>
        rw [hrun] at h
        cases h
        exact (hmirrors.error hrun hrest hoffers).node

/-- Both readings allow the same levels. -/
theorem within {f : Nat → Parse α} (hf : ∀ levels, Candid m tk X (f levels)) :
    Candid m tk X (do f (← read).settings.maxNesting) := by
  refine ⟨.within fun levels => (hf levels).toRegular, fun hs hX => ?_⟩
  rw [run_within, run_within, m.settings]
  exact (hf _).mirrors hs hX

/-! ## Lookahead -/

/-- A test of the next `n` tokens decides between two parsers. Where it holds, the first of them
gets past these `n` tokens; so it is the second one that can stop in front of one of them. -/
theorem fork {F : List Token → Bool} (hn : 0 < n) (hF : ∀ r r', r.take n = r'.take n → F r = F r')
    (hlen : ∀ r, F r → n ≤ r.length) (hp : Candid m tk True p) (hc : Commits n F p)
    (hq : Candid m tk Y q) (hY : ∀ rest, F (m.token :: rest) = false → Y → X) :
    Candid m tk X (do if ← looking F then p else q) := by
  refine ⟨.fork hp.toRegular hq.toRegular, fun {s} hs hX => ?_⟩
  rw [run_fork, run_fork]
  by_cases hlong : n ≤ s.rest.length
  · -- Both readings see the same `n` tokens.
    have hne : s.rest ≠ [] := List.length_pos_iff.mp (Nat.lt_of_lt_of_le hn hlong)
    have hsame : F (m.new s).rest = F (m.old s).rest := by
      apply hF
      simp [Repair.new, Repair.old, State.before, List.take_append_of_le_length hlong]
    rw [hsame]
    cases hold : F (m.old s).rest with
    | true => exact hp.mirrors hs fun hnil => absurd hnil hne
    | false => exact hq.mirrors hs fun hnil => absurd hnil hne
  · have hshort : s.rest.length < n := Nat.lt_of_not_le hlong
    cases hold : F (m.old s).rest with
    | true =>
        -- The first reading gets past its end here.
        have hle := hlen _ hold
        have hlength : (m.old s).rest.length = s.rest.length + m.left.length := List.length_append
        refine .of_short (hc (lasting_length _ _) hold ?_)
        rw [iterate_advance_rest, List.length_drop]
        omega
    | false =>
        cases hnew : F (m.new s).rest with
        | true => exact .of_past (hc Repair.past_lasting hnew (Repair.past_of_iterate hs hshort))
        | false =>
            refine hq.mirrors hs fun hnil hy => hX hnil (hY m.behind ?_ hy)
            rwa [Repair.new_rest hnil] at hnew

/-- A token that is taken where it is as wanted. -/
theorem eat (B : Token → Bool) : Candid m false X (eatWhen (next B)) := by
  refine ⟨.eat _, fun {s} hs _ => ?_⟩
  rw [run_eatWhen, run_eatWhen]
  cases hr : s.rest with
  | nil =>
      cases hnew : next B (m.new s).rest with
      | true => exact .of_past (Repair.past_of_taken hs hr)
      | false =>
          cases hold : next B (m.old s).rest with
          | true =>
              obtain ⟨t, rest, hleft, -⟩ := next_iff.mp hold
              have hsame : (m.old s).rest = m.left := by simp [Repair.old, State.before, hr]
              refine .of_short ?_
              simp [Lands, advance_rest, ← hsame, hleft]
          | false =>
              exact .same hs false
  | cons t rest =>
      have hsame : next B (m.new s).rest = next B (m.old s).rest := by
        simp [next, Repair.new, Repair.old, State.before, hr]
      rw [hsame]
      cases next B (m.old s).rest with
      | true => exact .taken hs (by simp [hr]) true
      | false => exact .same hs false

/-! ## Repetition -/

/-- A step that is repeated, and what stands behind. `Y` tells that the new token is one for the
step, which gets past it where it would else have ended. -/
theorem manyThen {step : Parse (Option α)} {f : List α → Parse β} (hp : Candid m false False step)
    (hprod : Productive step) (hf : ∀ as, Candid m tk Y (f as))
    (hY : ∀ s s₁, s.faults = [] → step m.found (m.old s) = .ok none (m.old s₁) → s₁.rest = [] → Y →
      Lands m.Past (step m.repaired (m.new s))) :
    Candid m tk X (Grammar.many step >>= f) := by
  have hreg (g : List α → Parse β) (hg : ∀ as, Candid m tk Y (g as)) :
      Regular tk (Grammar.many step >>= g) :=
    (hp.toRegular.many.bind fun as => (hg as).toRegular).weaken (by simp)
  have hall (k : Nat) : ∀ (g : List α → Parse β), (∀ as, Candid m tk Y (g as)) → ∀ s : State,
      s.rest.length = k → s.faults = [] → Mirrors m ((Grammar.many step >>= g) m.found (m.old s))
        ((Grammar.many step >>= g) m.repaired (m.new s)) := by
    induction k using Nat.strong_induction_on with
    | _ k ih =>
        intro g hg s hlen hs
        have hsplit : Grammar.many step >>= g = step >>= fun a? => match a? with
            | none => g []
            | some a => Grammar.many step >>= fun as => g (a :: as) := by
          conv_lhs => rw [many_eq hprod, bind_assoc]
          congr 1
          funext a?
          cases a? <;> simp
        rw [hsplit]
        refine (hp.mirrors hs fun _ hx => hx).bind (k := tk) (fun a? => ?_) fun a? s₁ hs₁ hrun => ?_
        · cases a? with
          | none => exact (hg []).toRegular
          | some a => exact hreg _ fun as => hg (a :: as)
        · cases a? with
          | none =>
              by_cases hy : s₁.rest = [] ∧ Y
              · exact .inr (hY s s₁ hs hrun hy.1 hy.2)
              · exact .inl ((hg []).mirrors hs₁ fun hnil hy' => hy ⟨hnil, hy'⟩)
          | some a =>
              have hlt := hprod _ _ _ _ hrun
              simp only [Repair.old, State.before, List.length_append] at hlt
              exact .inl (ih s₁.rest.length (by omega) _ (fun as => hg (a :: as)) s₁ rfl hs₁)
  exact ⟨hreg f hf, fun hs _ => hall _ f hf _ rfl hs⟩

theorem many {step : Parse (Option α)} (hp : Candid m false False step) (hprod : Productive step) :
    Candid m false X (Grammar.many step) := by
  have h : Candid m false X (Grammar.many step >>= Pure.pure) :=
    manyThen (Y := False) hp hprod (fun as => pure as) fun _ _ _ _ _ hy => hy.elim
  rwa [bind_pure] at h

/-! ## Blocks -/

theorem depth : Candid m false X braceDepth := by
  have hkeeps {I : State → Prop} {c : Context} : Keeps I c braceDepth :=
    ⟨fun hs h => by cases h; exact hs, fun _ h => by cases h⟩
  have hreg : Regular false braceDepth :=
    ⟨.depth, fun _ => hkeeps, .sure fun _ s => ⟨s.depth, s, rfl⟩⟩
  exact ⟨hreg, fun {s} hs _ => .same hs s.depth⟩

/-- Where reading stops at the first fault, a statement of a block is read without recovery. -/
theorem round_impatient {statement : Parse Node} {depth : Nat} {starters : List String} {t : Token}
    {rest : List Token} (hc : c.settings.patience ≤ 1) (hd : ¬s.depth < depth)
    (hr : s.rest = t :: rest) (ht : t.isMark .closeBrace = false) :
    Grammar.round depth starters statement c s = ((fun n => some [n]) <$> statement) c s := by
  cases hstat : statement c s with
  | ok n s' => rw [(RoundDerivation.reads hd hr ht hstat).execution, run_map, hstat]
  | error fault s' =>
      rw [(RoundDerivation.fails hd hr ht hstat (by omega)).execution, run_map, hstat]

theorem round {statement : Parse Node} (hp : Candid m true (m.token.isMark .closeBrace) statement)
    (depth : Nat) (starters : List String) :
    Candid m false X (Grammar.round depth starters statement) := by
  have hfound := m.impatient
  have hrepaired : m.repaired.settings.patience ≤ 1 := m.settings ▸ m.impatient
  refine ⟨hp.toRegular.round depth starters, fun {s} hs _ => ?_⟩
  by_cases hd : s.depth < depth
  · rw [(RoundDerivation.outside (s := m.old s) hd).execution,
      (RoundDerivation.outside (s := m.new s) hd).execution]
    exact .same hs none
  cases hr : s.rest with
  | nil =>
      by_cases hclose : m.token.isMark .closeBrace
      · rw [(RoundDerivation.closes (s := m.new s) hd (Repair.new_rest hr) hclose).execution]
        exact .of_past (Repair.past_of_taken hs hr)
      rw [round_impatient (s := m.new s) hrepaired hd (Repair.new_rest hr) (by simpa using hclose)]
      cases hold : (m.old s).rest with
      | nil =>
          rw [(RoundDerivation.unclosed (s := m.old s) hd hold).execution]
          refine ⟨fun h => (by cases h), fun h _ hoffers => ?_⟩
          cases h
          obtain ⟨e, he, hadmits⟩ := hoffers
          rw [expected_unexpected, List.mem_singleton] at he
          subst he
          exact absurd hadmits hclose
      | cons t rest =>
          by_cases ht : t.isMark .closeBrace
          · rw [(RoundDerivation.closes (s := m.old s) hd hold ht).execution]
            have hsame : (m.old s).rest = m.left := by simp [Repair.old, State.before, hr]
            refine .of_short ?_
            simp [Lands, advance_rest, ← hsame, hold]
          · rw [round_impatient (s := m.old s) hfound hd hold (by simpa using ht)]
            exact hp.map.mirrors hs fun _ => hclose
  | cons t rest =>
      have hne : s.rest ≠ [] := by simp [hr]
      by_cases ht : t.isMark .closeBrace
      · rw [(RoundDerivation.closes (s := m.old s) hd (State.before_rest hr) ht).execution,
          (RoundDerivation.closes (s := m.new s) hd (State.before_rest hr) ht).execution]
        exact .taken hs hne none
      · rw [round_impatient (s := m.old s) hfound hd (State.before_rest hr) (by simpa using ht),
          round_impatient (s := m.new s) hrepaired hd (State.before_rest hr) (by simpa using ht)]
        exact hp.map.mirrors hs fun hnil => absurd hnil hne

end Candid

/-! ## Parsers told by their first token -/

namespace Opening

theorem candid (hp : Opening m B X p) : Candid m tk X p :=
  hp.weaken fun _ => rfl

theorem accept (hp : Opening m B X p) (h : ∀ t, B' t → B t) : Opening m B' X p := by
  refine ⟨hp.toCandid, hp.begins.mono fun r hr => ?_⟩
  obtain ⟨t, rest, rfl, ht⟩ := next_iff.mp hr
  exact next_iff.mpr ⟨t, rest, rfl, h t ht⟩

/-- A parser that begins with no token in particular. -/
theorem never (hp : Candid m true X p) : Opening m (fun _ => false) X p :=
  ⟨hp, fun _ _ _ s hr => by simp [next] at hr⟩

theorem take {es : List String} {accept : Token → Bool}
    (h : ∀ e ∈ es, (Expectation.ofEntry e).admits m.token → accept m.token ∨ X) :
    Opening m accept X (expect es accept) :=
  ⟨.take h, .take⟩

theorem bind (hp : Opening m B X p) (hf : ∀ a, Candid m false False (f a)) :
    Opening m B X (p >>= f) :=
  ⟨.andThen hp.toCandid hf, hp.begins.bind fun a => (hf a).toRegular⟩

theorem map {g : α → β} (hp : Opening m B X p) : Opening m B X (g <$> p) :=
  ⟨hp.toCandid.map, hp.begins.map⟩

theorem node {parts : Parse (Rule × List Element)} (hp : Opening m B X parts) :
    Opening m B X (nodeBy parts) :=
  ⟨hp.toCandid.node, hp.begins.node⟩

end Opening

theorem next_take {r r' : List Token} (h : r.take 1 = r'.take 1) : next B r = next B r' := by
  cases r <;> cases r' <;> simp_all [next]

/-- A parser told by the next token, which it takes, or another one. -/
theorem Candid.told (hp : Opening m B True p) (hq : Candid m tk (X ∨ B m.token) q) :
    Candid m tk X (do if ← nextIs B then p else q) := by
  refine fork (F := next B) Nat.one_pos (fun _ _ => next_take) (fun r hr => ?_) hp.candid hp.begins
    hq fun rest hfalse hy => ?_
  · obtain ⟨t, rest, rfl, -⟩ := next_iff.mp hr
    simp
  · have hnot : B m.token = false := by simpa [next] using hfalse
    simpa [hnot] using hy

theorem Opening.told (hp : Opening m B True p) (hq : Opening m B' (X ∨ B m.token) q) :
    Opening m (fun t => B t || B' t) X (do if ← nextIs B then p else q) := by
  refine ⟨Candid.told hp hq.toCandid, Commits.fork (G := next B) (hp.begins.mono fun r hr => ?_)
    (hq.begins.mono fun r hr => ?_)⟩
  · simp only [Bool.and_eq_true] at hr
    exact hr.2
  · cases r with
    | nil => simp [next] at hr
    | cons t rest =>
        simp only [next, List.length_cons, Nat.zero_lt_succ, getElem?_pos, List.getElem_cons_zero,
          Option.any_some, Bool.and_eq_true, Bool.or_eq_true, Bool.not_eq_true'] at hr ⊢
        exact hr.1.resolve_left (by simp [hr.2])

theorem clause_eq (B : Token → Bool) (p q : Parse α) : (do if ← eatWhen (next B) then p else q) =
    (do if ← nextIs B then (do let _ ← expect [] B; p) else q) := by
  have hnext : nextIs B = looking (next B) := rfl
  funext c s
  rw [hnext, run_bind, run_eatWhen, run_bind, run_looking]
  cases h : next B s.rest with
  | true =>
      obtain ⟨t, rest, hr, ht⟩ := next_iff.mp h
      simp [run_bind, expect_of_cons hr ht]
  | false => rfl

/-- A parser told by the next token, which is taken before it, or another one. -/
theorem Candid.clause (hp : Candid m false False p) (hq : Candid m tk (X ∨ B m.token) q) :
    Candid m tk X (do if ← eatWhen (next B) then p else q) := by
  rw [clause_eq]
  exact .told (.bind (.take (by simp)) fun _ => hp) hq

theorem Opening.clause (hp : Candid m false False p) (hq : Opening m B' (X ∨ B m.token) q) :
    Opening m (fun t => B t || B' t) X (do if ← eatWhen (next B) then p else q) := by
  rw [clause_eq]
  exact .told (.bind (.take (by simp)) fun _ => hp) hq

/-! ## Statements -/

namespace Opening

variable {starters : List String} {statement : Parse Node}

theorem block (hp : Candid m true (m.token.isMark .closeBrace) statement) :
    Opening m (·.isMark .openBrace) X (Grammar.block starters statement) := by
  rw [block_eq]
  refine .bind (.map (.take fun e he hadmits => .inl ?_)) fun _ => .bind .depth fun depth => .map ?_
  · rw [List.mem_singleton.mp he, Expectation.ofEntry_spelling] at hadmits
    exact hadmits
  · exact .many (.round hp depth starters) (hp.advances.round_productive depth starters)

theorem blockOf (hs : starters.all Token.isReserved)
    (hp : Opening m (·.isOneOf starters) True statement) :
    Opening m (·.isMark .openBrace) X (Grammar.blockOf starters statement) := by
  refine block (.told hp (.unexpected fun e he hadmits => ?_))
  rcases List.mem_append.mp he with he | he
  · rw [Expectation.ofEntry_keyword (List.all_eq_true.mp hs e he)] at hadmits
    exact .inr (Token.isOneOf_iff.mpr ⟨e, he, Token.isKeyword_iff.mp hadmits⟩)
  · rw [List.mem_singleton.mp he] at hadmits
    exact .inl hadmits

end Opening

end Storyworld.Grammar
