import Mathlib.Data.List.Nodup
import Storyworld.Proofs.Document.Warnings
import Storyworld.Proofs.Relabel.Building
import Storyworld.Proofs.Relabel.Reading
import Storyworld.Proofs.Token.Numeral

namespace Storyworld

/-! Numbers from end to end. The definitions that are kept have the numbers of their source, exactly.
Any number may be written where one is expected: it is read as it is, or nothing else is at fault. -/

variable {n k : Node} {m : Measure} {t u : Token} {b : Numeral} {text : String}

/-! ## Tokens of a tree -/

namespace Node

/-- Where no token comes twice, no two parts share one. -/
theorem leaves_nodup_iff :
    n.leaves.Nodup ↔ (∀ c ∈ n.children, c.leaves.Nodup) ∧
      n.children.Pairwise fun c d => c.leaves.Disjoint d.leaves := by
  rw [leaves_eq, leavesIn_eq_flatMap]
  exact List.nodup_flatMap

theorem leaves_disjoint (h : n.leaves.Nodup) :
    n.nodes.Pairwise fun k l => k.leaves.Disjoint l.leaves := by
  refine (leaves_nodup_iff.mp h).2.filterMap _ fun c d hcd k hk l hl => ?_
  obtain ⟨rfl, rfl⟩ : c = .node k ∧ d = .node l := by
    cases c <;> cases d <;> simp_all [Element.node?]
  simpa [Element.leaves] using hcd

theorem eq_of_mem_leaves (h : n.leaves.Nodup) {c d : Element} (hc : c ∈ n.children)
    (hd : d ∈ n.children) (htc : t ∈ c.leaves) (htd : t ∈ d.leaves) : c = d := by
  have _ : Std.Symm fun c d : Element => c.leaves.Disjoint d.leaves :=
    ⟨fun _ _ => List.disjoint_symm⟩
  by_contra hne
  exact (leaves_nodup_iff.mp h).2.forall hc hd hne htc htd

theorem leaves_nodup (h : n.leaves.Nodup) (hk : k ∈ n.nodes) : k.leaves.Nodup := by
  simpa [Element.leaves] using (leaves_nodup_iff.mp h).1 _ (mem_nodes.mp hk)

theorem mem_leaves_of_node (hk : k ∈ n.nodes) (ht : t ∈ k.leaves) : t ∈ n.leaves :=
  mem_leaves.mpr ⟨_, mem_nodes.mp hk, by simpa [Element.leaves] using ht⟩

theorem mem_leaves_of_tokens (ht : t ∈ n.tokens) : t ∈ n.leaves :=
  mem_leaves.mpr ⟨_, Token.mem_tokens.mp ht, by simp [Element.leaves]⟩

theorem not_mem_leaves_of_tokens (h : n.leaves.Nodup) (ht : t ∈ n.tokens) (hk : k ∈ n.nodes) :
    t ∉ k.leaves := by
  intro hmem
  have hsame := eq_of_mem_leaves h (t := t) (Token.mem_tokens.mp ht) (mem_nodes.mp hk)
    (by simp [Element.leaves]) (by simpa [Element.leaves] using hmem)
  cases hsame

theorem mem_leaves_of_numerals {n : Node} (h : b ∈ n.numerals) : b.token ∈ n.leaves := by
  rcases mem_numerals.mp h with hown | ⟨k, hk, hbelow⟩
  · exact mem_leaves_of_tokens (mem_tokens_of_own hown)
  · exact mem_leaves_of_node hk (mem_leaves_of_numerals hbelow)
termination_by sizeOf n
decreasing_by exact sizeOf_lt hk

/-- Where no token comes twice, no number does. -/
theorem numerals_nodup {n : Node} (h : n.leaves.Nodup) :
    (n.numerals.map Numeral.token).Nodup := by
  have hown : (n.ownNumerals.map Numeral.token).Nodup := by
    unfold ownNumerals
    cases n.rule.measure? <;> cases n.tokens.getLast? <;> simp
  have hbelow : ((n.nodes.flatMap numerals).map Numeral.token).Nodup := by
    rw [List.map_flatMap]
    refine List.nodup_flatMap.mpr ⟨fun k hk => numerals_nodup (leaves_nodup h hk), ?_⟩
    refine (leaves_disjoint h).imp fun hkl => ?_
    have hsub (k : Node) : k.numerals.map Numeral.token ⊆ k.leaves := by
      intro t ht
      obtain ⟨b, hb, rfl⟩ := List.mem_map.mp ht
      exact mem_leaves_of_numerals hb
    exact List.disjoint_of_subset_left (hsub _) (List.disjoint_of_subset_right (hsub _) hkl)
  rw [numerals_eq, List.map_append]
  refine List.nodup_append.mpr ⟨hown, hbelow, ?_⟩
  rintro t ht _ hu rfl
  obtain ⟨b, hb, rfl⟩ := List.mem_map.mp ht
  obtain ⟨b', hb', htoken⟩ := List.mem_map.mp hu
  obtain ⟨k, hk, hbelow⟩ := List.mem_flatMap.mp hb'
  refine not_mem_leaves_of_tokens h (mem_tokens_of_own hb) hk ?_
  exact htoken ▸ mem_leaves_of_numerals hbelow
termination_by sizeOf n
decreasing_by exact sizeOf_lt hk

end Node

/-! ## Another number in a place -/

namespace Relabelling

/-- Another text is put where a token lies. -/
def put (t : Token) (text : String) : Relabelling :=
  ⟨fun u => if u = t then text else u.text, id⟩

theorem put_stays (t : Token) (text : String) : (put t text).Stays :=
  fun _ => rfl

theorem put_token (ht : t.kind = .number) : (put t text).token t = { t with text := text } := by
  simp [token, put, ht]

theorem put_token_of_ne (h : u ≠ t) : (put t text).token u = u := by
  simp [token, put, h]

theorem put_element {c : Element} (h : t ∉ c.leaves) : (put t text).element c = c :=
  (put t text).element_of_leaves (put_stays t text) c fun _ hu => put_token_of_ne (ne_of_mem_of_not_mem hu h)

theorem put_node (h : t ∉ n.leaves) : (put t text).node n = n :=
  (put t text).node_of_leaves (put_stays t text) n fun _ hu => put_token_of_ne (ne_of_mem_of_not_mem hu h)

/-- One number of a tree is exchanged. -/
theorem put_exchangesIn (ht : t.kind = .number) (hword : (Text.Integer.word? text.toList).isSome)
    {n : Node} (hn : n.Every (fun k => k.isFilled) fun _ => True)
    (hput : ((put t text).node n).Every (fun k => k.isFilled) fun _ => True)
    (h : n.leaves.Nodup) (hown : t ∈ n.leaves → ∃ m, ⟨m, t⟩ ∈ n.numerals) :
    (put t text).ExchangesIn n := by
  refine Node.every_iff.mpr ⟨⟨hn.here, hput.here, fun u hu => ?_, ?_⟩, fun c hc => ?_⟩
  · by_cases hut : u = t
    · subst hut
      obtain ⟨m, hm⟩ := hown (Node.mem_leaves_of_tokens hu)
      rcases Node.mem_numerals.mp hm with hm | ⟨k, hk, hbelow⟩
      · exact .inr ⟨by rwa [put_token ht], m, hm⟩
      · exact absurd (Node.mem_leaves_of_numerals hbelow) (Node.not_mem_leaves_of_tokens h hu hk)
    · exact .inl (put_token_of_ne hut)
  · refine (Node.leaves_nodup_iff.mp h).2.imp fun {c d} hcd => ?_
    by_cases htc : t ∈ c.leaves
    · exact .inr (put_element (hcd htc))
    · exact .inl (put_element htc)
  · cases c with
    | token u => exact Element.every_token.mpr trivial
    | node k =>
        have hk := Node.mem_nodes.mpr hc
        have hk' : (put t text).node k ∈ ((put t text).node n).nodes := by
          rw [nodes_node]
          exact List.mem_map_of_mem hk
        refine Element.every_node.mpr (put_exchangesIn ht hword (hn.node hk) (hput.node hk')
          (Node.leaves_nodup h hk) fun htk => ?_)
        obtain ⟨m, hm⟩ := hown (Node.mem_leaves_of_node hk htk)
        rcases Node.mem_numerals.mp hm with hm | ⟨l, hl, hbelow⟩
        · exact absurd htk (Node.not_mem_leaves_of_tokens h (Node.mem_tokens_of_own hm) hk)
        · have hmem : t ∈ l.leaves := Node.mem_leaves_of_numerals hbelow
          have hkl := Node.eq_of_mem_leaves h (Node.mem_nodes.mp hk) (Node.mem_nodes.mp hl)
            (t := t) (by simpa [Element.leaves] using htk) (by simpa [Element.leaves] using hmem)
          cases hkl
          exact ⟨m, hbelow⟩
termination_by sizeOf n
decreasing_by exact Node.sizeOf_lt hk

end Relabelling

/-! ## Decimals -/

namespace Decimal

variable {x : Decimal}

/-- A signed word of 64 bits holds the number. -/
def Fits (x : Decimal) : Prop :=
  -2 ^ 63 ≤ x.value ∧ x.value < 2 ^ 63

instance (x : Decimal) : Decidable x.Fits :=
  inferInstanceAs (Decidable (_ ∧ _))

/-- The number as a token. -/
def token (x : Decimal) (span : Span) : Token :=
  ⟨.number, span, x.text⟩

/-- A one, in as many characters. -/
def one (x : Decimal) : Decimal :=
  ⟨false, List.replicate (x.chars.length - 1) 0 ++ [1], by simp⟩

theorem chars_ne_nil (x : Decimal) : x.chars ≠ [] := by
  obtain ⟨c, cs, hcs, -⟩ := x.exists_digit
  unfold chars
  split <;> simp [hcs]

theorem length_one (x : Decimal) : x.one.chars.length = x.chars.length := by
  have hpos := List.length_pos_iff.mpr x.chars_ne_nil
  have hone : x.one.chars.length = (List.replicate (x.chars.length - 1) (0 : Fin 10) ++ [1]).length :=
    List.length_map _
  rw [hone, List.length_append, List.length_replicate, List.length_singleton]
  omega

theorem value_one (x : Decimal) : x.one.value = 1 := by
  have hzeros (n : Nat) : Nat.ofDigits 10 (List.replicate n 0) = 0 := by
    induction n with
    | zero => rfl
    | succ n ih => rw [List.replicate_succ, Nat.ofDigits_cons, ih]
  have hone : Nat.ofDigits 10 (x.one.digits.reverse.map Fin.val) = 1 := by
    simp [one, List.reverse_append, Nat.ofDigits_cons, hzeros]
  rw [value, hone]
  rfl

theorem isSome_word : (Text.Integer.word? x.chars).isSome ↔ x.Fits := by
  have hmin : Int64.minValue.toInt = -2 ^ 63 := by decide
  have hmax : Int64.maxValue.toInt = 2 ^ 63 - 1 := by decide
  unfold Text.Integer.word? Text.Integer.int64? Fits
  rw [read?_chars, Option.bind_some, hmin, hmax]
  split <;> rename_i h
  · simp only [Option.isSome_some, true_iff]
    omega
  · simp only [Option.isSome_none, Bool.false_eq_true, false_iff]
    omega

end Decimal

/-! ## Reading a source with another number -/

/-- What is said of a numeral is one number. -/
theorem Number.SaidBy.unique {a a' : Number} (h : a.SaidBy b) (h' : a'.SaidBy b) : a = a' := by
  obtain ⟨m, v⟩ := a
  obtain ⟨m', v'⟩ := a'
  obtain rfl : m = m' := h.measure.trans h'.measure.symm
  obtain rfl : v = v' := Option.some.inj (h.value.symm.trans h'.value)
  rfl

namespace Tree

variable {settings : Settings} {source : List Char} {tokens : List Token}

theorem leaves_nodup (settings : Settings) (h : Lexer.tokens source = .ok tokens) :
    (ofTokens settings tokens).tree.root.leaves.Nodup := by
  obtain ⟨taken, hsplit, hlaid, -⟩ := ofTokens_over settings tokens
  have htaken : taken.Sublist (significant tokens) := by
    rw [hsplit]
    exact List.sublist_append_left _ _
  rw [Node.leaves_eq]
  exact ((hlaid.leaves_sublist.trans htaken).trans List.filter_sublist).nodup
    (Lexer.tokens_inOrder h).nodup

theorem root_filled (settings : Settings) (h : Lexer.tokens source = .ok tokens) :
    (ofTokens settings tokens).tree.root.Every (fun k => k.isFilled) fun _ => True :=
  (ofTokens_grown settings h).root.2.mono (fun _ hk => hk.filled) fun _ _ => trivial

theorem significant_map (w : Relabelling) (ts : List Token) :
    significant (ts.map w.token) = (significant ts).map w.token := by
  rw [significant, List.filter_map]
  rfl

end Tree

open Token

/-- A numeral of a source, between other tokens. There is nothing at fault in the source. -/
structure Numeral.IsIn (settings : Settings) (before : List Token) (b : Numeral)
    (after : List Token) : Prop where
  tokens : Lexer.tokens (texts (before ++ b.token :: after)) = .ok (before ++ b.token :: after)
  isOk : (Outcome.ofSource settings (texts (before ++ b.token :: after))).isOk
  mem : b ∈ (Tree.ofTokens settings (before ++ b.token :: after)).tree.root.numerals

namespace Numeral.IsIn

variable {settings : Settings} {before after : List Token} {x : Decimal}

theorem kind (h : b.IsIn settings before after) : b.token.kind = .number := by
  have hadmits := Node.admits_of_mem (Tree.root_filled settings h.tokens) h.mem
  simp only [Part.admits, Bool.and_eq_true, decide_eq_true_eq] at hadmits
  exact hadmits.1

theorem put_token_eq (h : b.IsIn settings before after) (x : Decimal) :
    (Relabelling.put b.token x.text).token b.token = x.token b.token.span := by
  rw [Relabelling.put_token h.kind, Decimal.token, h.kind]

/-- The other tokens stay as they are. -/
theorem map_put (h : b.IsIn settings before after) (x : Decimal) :
    (before ++ b.token :: after).map (Relabelling.put b.token x.text).token =
      before ++ x.token b.token.span :: after := by
  have hnodup := (Lexer.tokens_inOrder h.tokens).nodup
  obtain ⟨-, hafter, hbefore⟩ := List.nodup_append.mp hnodup
  have hfront : before.map (Relabelling.put b.token x.text).token = before :=
    (List.map_congr_left fun u hu =>
      Relabelling.put_token_of_ne (hbefore u hu b.token (by simp))).trans (List.map_id _)
  have hback : after.map (Relabelling.put b.token x.text).token = after :=
    (List.map_congr_left fun u hu => Relabelling.put_token_of_ne
      (ne_of_mem_of_not_mem hu (List.nodup_cons.mp hafter).1)).trans (List.map_id _)
  rw [List.map_append, List.map_cons, hfront, hback, h.put_token_eq]

/-- The definition the numeral is in; it is in no other one. -/
theorem exists_root (h : b.IsIn settings before after) : ∃ front r back,
    (Tree.ofTokens settings (before ++ b.token :: after)).tree.root.nodes = front ++ r :: back ∧
      b ∈ r.numerals ∧ ∀ k ∈ front ++ back, b.token ∉ k.leaves := by
  have hnodup := Tree.leaves_nodup settings h.tokens
  have hrule := List.mem_singleton.mp (Tree.ofTokens_grown settings h.tokens).root.1
  have hmem := h.mem
  rw [Node.numerals_eq, Node.ownNumerals_of_none (by rw [hrule]; rfl), List.nil_append] at hmem
  obtain ⟨r, hr, hb⟩ := List.mem_flatMap.mp hmem
  obtain ⟨front, back, hnodes⟩ := List.append_of_mem hr
  have hleaf : b.token ∈ r.leaves := Node.mem_leaves_of_numerals hb
  have hapart := Node.leaves_disjoint hnodup
  rw [hnodes] at hapart
  obtain ⟨-, hback, hfront⟩ := List.pairwise_append.mp hapart
  refine ⟨front, r, back, hnodes, hb, fun k hk hmem => ?_⟩
  rcases List.mem_append.mp hk with hk | hk
  · exact hfront k hk r (by simp) hmem hleaf
  · exact (List.pairwise_cons.mp hback).1 k hk hleaf hmem

section

variable (h : b.IsIn settings before after) (hx : x.chars.length = b.token.text.toList.length)

include h hx

theorem tokens_exchange : Lexer.tokens (texts (before ++ x.token b.token.span :: after)) =
    .ok (before ++ x.token b.token.span :: after) := by
  have hkind := h.kind
  have htokens := Lexer.tokens_exchange h.tokens hkind x.isNumeral_chars hx
  have hsource : texts (before ++ x.token b.token.span :: after) =
      texts before ++ (x.chars ++ texts after) := by
    simp [texts, Decimal.token, Decimal.text]
  rw [hsource, htokens, Decimal.token, Decimal.text, hkind]

theorem reread : (Tree.ofTokens settings (before ++ x.token b.token.span :: after)).faults = [] ∧
      (Tree.ofTokens settings (before ++ x.token b.token.span :: after)).tree.root.nodes =
        (Tree.ofTokens settings (before ++ b.token :: after)).tree.root.nodes.map
          (Relabelling.put b.token x.text).node ∧ x.Fits ∨
    (Tree.ofTokens settings (before ++ x.token b.token.span :: after)).faults.head? =
      some ⟨.malformedNumber x.text, b.token.span⟩ ∧ ¬x.Fits := by
  obtain ⟨_, htokens, hparsed, -⟩ := Outcome.of_isOk h.isOk
  cases h.tokens.symm.trans htokens
  have hsame := (congrArg Tree.significant (h.map_put x)).symm.trans (Tree.significant_map _ _)
  rcases Tree.ofTokens_relabelled (Relabelling.put_stays _ _) hparsed hsame with
    ⟨hfaults, hnodes⟩ | ⟨fault, hhead, t, -, hword, hspoilt, rfl⟩
  · refine .inl ⟨hfaults, hnodes, ?_⟩
    -- The numeral stands where only a number that fits is taken.
    obtain ⟨front, r, back, hroots, hb, -⟩ := h.exists_root
    have hmem : (Relabelling.put b.token x.text).node r ∈
        (Tree.ofTokens settings (before ++ x.token b.token.span :: after)).tree.root.nodes := by
      rw [hnodes, hroots]
      exact List.mem_map_of_mem (by simp)
    have hput := (Tree.root_filled settings (h.tokens_exchange hx)).node hmem
    have hnumeral : b.relabelled (Relabelling.put b.token x.text) ∈
        ((Relabelling.put b.token x.text).node r).numerals := by
      rw [Relabelling.numerals_node]
      exact List.mem_map_of_mem hb
    have hadmits := Node.admits_of_mem hput hnumeral
    rw [Numeral.relabelled, h.put_token_eq] at hadmits
    simp only [Part.admits, Bool.and_eq_true] at hadmits
    exact Decimal.isSome_word.mp (by simpa [Decimal.token, Decimal.text] using hadmits.2)
  · have ht : t = b.token := by
      by_contra hne
      rw [Relabelling.put_token_of_ne hne] at hspoilt
      simp_all
    subst ht
    rw [h.put_token_eq] at hhead hspoilt
    refine .inr ⟨hhead, fun hfits => ?_⟩
    have hsome := Decimal.isSome_word.mpr hfits
    simp_all [Decimal.token, Decimal.text]

end

end Numeral.IsIn

/-! ## Building it -/

open Shape

/-- Numbers around the one that a numeral says. -/
theorem Numeral.exists_around {as : List Number} {bs cs : List Numeral}
    (h : List.Forall₂ Number.SaidBy as (bs ++ b :: cs)) : ∃ fewer a more, as = fewer ++ a :: more ∧
      List.Forall₂ Number.SaidBy fewer bs ∧ a.SaidBy b ∧ List.Forall₂ Number.SaidBy more cs := by
  have hmore := List.forall₂_drop_append _ _ _ h
  obtain ⟨a, more, ha, hmore, heq⟩ := List.forall₂_cons_right_iff.mp hmore
  refine ⟨as.take bs.length, a, more, ?_, List.forall₂_take_append _ _ _ h, ha, hmore⟩
  rw [← heq, List.take_append_drop]

namespace Relabelling

variable {limit : Nat} {d d' : Definition} {v : Int}

section

variable (hkind : b.token.kind = .number) (hv : Text.Integer.read? text.toList = some v)
  (hleaves : n.leaves.Nodup) (hb : b ∈ n.numerals)
  (hn : n.Every (fun k => k.isFilled) fun _ => True)

include hleaves hb

/-- The other numerals of a tree stay as they are. -/
theorem numerals_put (text : String) : ∃ front behind, n.numerals = front ++ b :: behind ∧
    ((put b.token text).node n).numerals =
      front ++ b.relabelled (put b.token text) :: behind := by
  have hnodup := Node.numerals_nodup hleaves
  obtain ⟨front, behind, hnumerals⟩ := List.append_of_mem hb
  rw [hnumerals, List.map_append, List.map_cons] at hnodup
  obtain ⟨-, hbehind, hfront⟩ := List.nodup_append.mp hnodup
  have hstays {bs : List Numeral} (h : ∀ c ∈ bs, c.token ≠ b.token) :
      bs.map (Numeral.relabelled (put b.token text)) = bs := by
    refine (List.map_congr_left fun c hc => ?_).trans (List.map_id _)
    rw [Numeral.relabelled, put_token_of_ne (h c hc)]
    rfl
  refine ⟨front, behind, hnumerals, ?_⟩
  rw [numerals_node, hnumerals, List.map_append, List.map_cons, hstays fun c hc => ?_,
    hstays fun c hc => ?_]
  · exact ne_of_mem_of_not_mem (List.mem_map_of_mem hc) (List.nodup_cons.mp hbehind).1
  · exact hfront _ (List.mem_map_of_mem hc) _ (by simp)

include hkind hv hn

/-- What is built after the exchange differs in one number, which is the new one. -/
theorem numbers_put (hput : ((put b.token text).node n).Every (fun k => k.isFilled) fun _ => True)
    (hd : Makes (definition limit n) d) : ∃ fewer u more,
      Text.Integer.read? b.token.text.toList = some u ∧
      d.numbers = fewer ++ ⟨b.measure, u⟩ :: more ∧
      ∀ d', Makes (definition limit ((put b.token text).node n)) d' →
        b.measure.Allows v ∧ d'.numbers = fewer ++ ⟨b.measure, v⟩ :: more := by
  have hunique : Relator.LeftUnique Number.SaidBy := fun _ _ _ h h' => h.unique h'
  obtain ⟨front, behind, hnumerals, hnumerals'⟩ := numerals_put hleaves hb text
  obtain ⟨fewer, ⟨_, u⟩, more, heq, hfewer, ⟨rfl, hu, -⟩, hmore⟩ :=
    Numeral.exists_around (hnumerals ▸ Definition.numbers_matches hn hd)
  refine ⟨fewer, u, more, hu, heq, fun d' hd' => ?_⟩
  obtain ⟨fewer', ⟨_, v'⟩, more', heq', hfewer', ⟨rfl, hv', hallowed⟩, hmore'⟩ :=
    Numeral.exists_around (hnumerals' ▸ Definition.numbers_matches hput hd')
  obtain rfl : v = v' := by
    rw [Numeral.relabelled, put_token hkind] at hv'
    exact Option.some.inj (hv.symm.trans hv')
  rw [heq', List.left_unique_forall₂' hunique hfewer' hfewer,
    List.left_unique_forall₂' hunique hmore' hmore]
  exact ⟨hallowed, rfl⟩

/-- Only the new number can be out of range. -/
theorem misfits_put (hd : Makes (definition limit n) d) {fault : ShapeFault}
    (h : (put b.token text).Misfits n fault) :
    ¬b.measure.Allows v ∧ fault = .outOfRange b.measure.what v b.token.span := by
  obtain ⟨c, hc, u, hu, hnot, rfl⟩ := h
  by_cases hcb : c.token = b.token
  · obtain rfl := List.inj_on_of_nodup_map (Node.numerals_nodup hleaves) hc hb hcb
    rw [put_token hkind] at hu ⊢
    obtain rfl : v = u := Option.some.inj (hv.symm.trans hu)
    exact ⟨hnot, rfl⟩
  · -- The other numbers are those of a definition that was built.
    rw [put_token_of_ne hcb] at hu
    obtain ⟨front, behind, hnumerals⟩ := List.append_of_mem hc
    obtain ⟨_, a, _, -, -, ha, -⟩ :=
      Numeral.exists_around (hnumerals ▸ Definition.numbers_matches hn hd)
    have hsame : a.value = u := Option.some.inj (ha.value.symm.trans hu)
    rw [← hsame, ← ha.measure] at hnot
    exact absurd ha.allowed hnot

end

end Relabelling

namespace Built

variable {limit : Nat} {front back : List Node} {d : Definition}

theorem ofNode_of_makes (h : Makes (definition limit n) d) :
    ofNode limit n = { definitions := [d] } := by
  have hrun : definition limit n [] = .ok d [] := h
  rw [ofNode, hrun]

theorem definitions_of_faults (h : (ofNode limit n).faults ≠ []) :
    (ofNode limit n).definitions = [] := by
  rcases ofNode_cases limit n with ⟨_, -, hnone⟩ | ⟨hnone, -⟩
  · exact absurd hnone h
  · exact hnone

theorem definitions_around : (ofNodes limit (front ++ n :: back)).definitions =
    (ofNodes limit front).definitions ++
      ((ofNode limit n).definitions ++ (ofNodes limit back).definitions) := by
  simp [definitions_ofNodes]

theorem faults_around : (ofNodes limit (front ++ n :: back)).faults =
    (ofNodes limit front).faults ++ ((ofNode limit n).faults ++ (ofNodes limit back).faults) := by
  simp [faults_ofNodes]

end Built

namespace Outcome

variable {settings : Settings} {source : List Char} {tokens : List Token}

/-- The definitions that are kept. -/
def definitions (o : Outcome) : List Definition :=
  o.document.elim [] Document.definitions

theorem definitions_ofSource (settings : Settings) (h : Lexer.tokens source = .ok tokens) :
    (ofSource settings source).definitions = (Built.ofNodes settings.maxNesting
      (Tree.ofTokens settings tokens).tree.root.nodes).definitions := by
  simp only [definitions, ofSource, h, ofTokens]
  split <;> rename_i hkept
  · rfl
  · have hnone : (Built.ofTree settings (Tree.ofTokens settings tokens).tree).definitions = [] := by
      simp_all
    exact hnone.symm

theorem faults_ofSource (settings : Settings) (h : Lexer.tokens source = .ok tokens) :
    (ofSource settings source).faults = (Tree.ofTokens settings tokens).faults.map .syntactic ++
      (Built.ofNodes settings.maxNesting
        (Tree.ofTokens settings tokens).tree.root.nodes).faults.map .shape := by
  simp only [ofSource, h]
  rfl

theorem isOk_iff : (ofSource settings source).isOk ↔ (ofSource settings source).faults = [] := by
  rw [isOk, Bool.and_eq_true, List.isEmpty_iff]
  exact and_iff_left_of_imp (isSome_document_of_faults settings source)

end Outcome

namespace Numeral.IsIn

open Outcome

variable {settings : Settings} {before after : List Token} {x : Decimal}

section

variable (h : b.IsIn settings before after) (hx : x.chars.length = b.token.text.toList.length)
  (hfits : x.Fits)

include h hx hfits

/-- Another number that fits is read in its place, and all other definitions are read as before. -/
theorem exists_reread : ∃ front r back,
    (Tree.ofTokens settings (before ++ b.token :: after)).tree.root.nodes = front ++ r :: back ∧
    (Tree.ofTokens settings (before ++ x.token b.token.span :: after)).faults = [] ∧
    (Tree.ofTokens settings (before ++ x.token b.token.span :: after)).tree.root.nodes =
      front ++ (Relabelling.put b.token x.text).node r :: back ∧
    b ∈ r.numerals ∧ r.leaves.Nodup ∧ r.Every (fun k => k.isFilled) (fun _ => True) ∧
    ((Relabelling.put b.token x.text).node r).Every (fun k => k.isFilled) fun _ => True := by
  obtain ⟨front, r, back, hroots, hb, hapart⟩ := h.exists_root
  obtain ⟨hparsed, hroots', -⟩ := (h.reread hx).resolve_right fun hnot => hnot.2 hfits
  have hstays {ks : List Node} (hks : ∀ k ∈ ks, b.token ∉ k.leaves) :
      ks.map (Relabelling.put b.token x.text).node = ks :=
    (List.map_congr_left fun k hk => Relabelling.put_node (hks k hk)).trans (List.map_id _)
  rw [hroots, List.map_append, List.map_cons, hstays fun k hk => hapart k (by simp [hk]),
    hstays fun k hk => hapart k (by simp [hk])] at hroots'
  refine ⟨front, r, back, hroots, hparsed, hroots', hb, ?_, ?_, ?_⟩
  · exact Node.leaves_nodup (Tree.leaves_nodup settings h.tokens) (by simp [hroots])
  · exact (Tree.root_filled settings h.tokens).node (by simp [hroots])
  · exact (Tree.root_filled settings (h.tokens_exchange hx)).node (by simp [hroots'])

/-- Where another number that fits is written, the document has it, or nothing else is at fault and the
rest of the document is kept. -/
theorem exchange :
    let plain := ofSource settings (texts (before ++ b.token :: after))
    let outcome := ofSource settings (texts (before ++ x.token b.token.span :: after))
    ∃ front d back fewer u more, Text.Integer.read? b.token.text.toList = some u ∧
      plain.definitions = front ++ d :: back ∧ d.numbers = fewer ++ ⟨b.measure, u⟩ :: more ∧
      (b.measure.Allows x.value → outcome.isOk ∧ ∃ d', outcome.definitions = front ++ d' :: back ∧
        d'.numbers = fewer ++ ⟨b.measure, x.value⟩ :: more) ∧
      (¬b.measure.Allows x.value → outcome.definitions = front ++ back ∧
        outcome.faults = [.shape (.outOfRange b.measure.what x.value b.token.span)]) := by
  intro plain outcome
  obtain ⟨front, r, back, hroots, hparsed, hroots', hb, hleaves, hn, hput⟩ := h.exists_reread hx hfits
  have hfaults := isOk_iff.mp h.isOk
  rw [faults_ofSource settings h.tokens, hroots, Built.faults_around] at hfaults
  obtain ⟨-, hbuilt⟩ := List.append_eq_nil_iff.mp hfaults
  simp only [List.map_eq_nil_iff, List.append_eq_nil_iff, Built.faults_ofNode] at hbuilt
  obtain ⟨hfront, hr, hback⟩ := hbuilt
  obtain ⟨d, hd⟩ := exists_makes hr
  have hv : Text.Integer.read? x.text.toList = some x.value := by
    simpa [Decimal.text] using x.read?_chars
  have hword : (Text.Integer.word? x.text.toList).isSome := by
    simpa [Decimal.text] using Decimal.isSome_word.mpr hfits
  have hexchanges := Relabelling.put_exchangesIn h.kind hword hn hput hleaves fun _ => ⟨_, hb⟩
  obtain ⟨fewer, u, more, hu, hnumbers, hnumbers'⟩ :=
    Relabelling.numbers_put h.kind hv hleaves hb hn hput hd
  refine ⟨(Built.ofNodes settings.maxNesting front).definitions, d,
    (Built.ofNodes settings.maxNesting back).definitions, fewer, u, more, hu, ?_, hnumbers, ?_⟩
  · rw [definitions_ofSource settings h.tokens, hroots, Built.definitions_around, Built.ofNode_of_makes hd]
    rfl
  have hdefinitions := definitions_ofSource settings (h.tokens_exchange hx)
  have hall := faults_ofSource settings (h.tokens_exchange hx)
  rw [hparsed, hroots', Built.faults_around, hfront, hback] at hall
  rw [hroots', Built.definitions_around] at hdefinitions
  rcases definition_atMostOne hexchanges (Relabelling.put_stays _ _) hr with
    hnone | ⟨fault, hmisfit, hone⟩
  · obtain ⟨d', hd'⟩ := exists_makes hnone
    obtain ⟨hallowed, hd'numbers⟩ := hnumbers' d' hd'
    rw [Built.ofNode_of_makes hd'] at hall hdefinitions
    exact ⟨fun _ => ⟨isOk_iff.mpr hall, d', hdefinitions, hd'numbers⟩, absurd hallowed⟩
  · obtain ⟨hnot, rfl⟩ := Relabelling.misfits_put h.kind hv hleaves hb hn hd hmisfit
    rw [Built.definitions_of_faults (by rw [Built.faults_ofNode, hone]; simp)] at hdefinitions
    rw [Built.faults_ofNode, hone] at hall
    exact ⟨fun hallowed => absurd hallowed hnot, fun _ => ⟨hdefinitions, hall⟩⟩

end

end Numeral.IsIn

/-! ## From end to end -/

namespace Outcome

/-- Each definition that is kept has the numbers of its construct. -/
theorem numbers_of_document {settings : Settings} {source : List Char} {document : Document}
    (h : (ofSource settings source).document = some document) :
    ∃ tokens kept, Lexer.tokens source = .ok tokens ∧
      kept.Sublist (Tree.ofTokens settings tokens).tree.root.nodes ∧
      List.Forall₂ (fun d n => List.Forall₂ Number.SaidBy d.numbers n.numerals)
        document.definitions kept := by
  cases htokens : Lexer.tokens source with
  | error fault => simp [ofSource, htokens, ofLexFault] at h
  | ok tokens =>
      have hdefinitions := definitions_ofSource settings htokens
      rw [definitions, h, Option.elim_some] at hdefinitions
      have hfilled := Tree.root_filled settings htokens
      obtain ⟨kept, hsub, hkept⟩ := Built.exists_kept settings.maxNesting
        (Tree.ofTokens settings tokens).tree.root.nodes
      refine ⟨tokens, kept, rfl, hsub, ?_⟩
      rw [hdefinitions]
      refine (forall₂_of_mem hkept.flip fun n hn d hd => ?_).flip
      exact Definition.numbers_matches (hfilled.node (hsub.subset hn)) hd

/-- Numbers are exact from end to end. Each definition that is kept has the numbers of its construct,
exactly as they are written and all of them in range. And where a source without faults has a number,
any other one may be written, with or without a sign and with any number of digits; a one in as many
characters keeps the place for it. A number that a signed word does not hold is the first fault. One
that is held and in range is what the document has in that place. One that is out of range is the only
fault, and nothing is left out but the definition it is in. -/
theorem ofSource_numbers (settings : Settings) :
    (∀ source document, (ofSource settings source).document = some document →
      ∃ tokens kept, Lexer.tokens source = .ok tokens ∧
        kept.Sublist (Tree.ofTokens settings tokens).tree.root.nodes ∧
        List.Forall₂ (fun d n => List.Forall₂ Number.SaidBy d.numbers n.numerals)
          document.definitions kept) ∧
    ∀ (x : Decimal) (m : Measure) (before after : List Token) (span : Span),
      Numeral.IsIn settings before ⟨m, x.one.token span⟩ after →
      let plain := ofSource settings (texts (before ++ x.one.token span :: after))
      let outcome := ofSource settings (texts (before ++ x.token span :: after))
      (¬x.Fits →
        outcome.faults.head? = some (.syntactic ⟨.malformedNumber x.text, span⟩)) ∧
      (x.Fits → ∃ front d back fewer more, plain.definitions = front ++ d :: back ∧
        d.numbers = fewer ++ ⟨m, 1⟩ :: more ∧
        (m.Allows x.value → outcome.isOk ∧ ∃ d', outcome.definitions = front ++ d' :: back ∧
          d'.numbers = fewer ++ ⟨m, x.value⟩ :: more) ∧
        (¬m.Allows x.value → outcome.definitions = front ++ back ∧
          outcome.faults = [.shape (.outOfRange m.what x.value span)])) := by
  refine ⟨fun source document => numbers_of_document, fun x m before after span h => ?_⟩
  have hx : x.chars.length = (x.one.token span).text.toList.length := by
    simp [Decimal.token, Decimal.text, x.length_one]
  refine ⟨fun hnot => ?_, fun hfits => ?_⟩
  · obtain ⟨hhead, -⟩ := (h.reread hx).resolve_left fun hread => hnot hread.2.2
    have hfaults := faults_ofSource settings (h.tokens_exchange hx)
    exact (congrArg List.head? hfaults).trans (by rw [List.head?_append, List.head?_map, hhead]; rfl)
  · obtain ⟨front, d, back, fewer, u, more, hu, hplain, hnumbers, hin, hout⟩ := h.exchange hx hfits
    have hone : u = 1 := by
      have hread := x.one.read?_chars
      rw [x.value_one] at hread
      simpa [Decimal.token, Decimal.text, hread, eq_comm] using hu
    subst hone
    exact ⟨front, d, back, fewer, more, hplain, hnumbers, hin, hout⟩

/-- A trigger with a chance. -/
def chancy : String :=
  "trigger \"t\" when always \x7b if chance 001% \x7b do award points 5 \x7d \x7d"

theorem ofSource_numbers_chancy :
    let x : Decimal := ⟨false, [1, 0, 1], by decide⟩
    let before := (Lexer.tokensOf chancy).take 14
    let after := (Lexer.tokensOf chancy).drop 15
    let span : Span := ⟨36, 39, 1, 37⟩
    Numeral.IsIn {} before ⟨.chance, x.one.token span⟩ after ∧ x.Fits ∧ ¬Measure.chance.Allows x.value ∧
      (ofSource {} (texts (before ++ x.token span :: after))).faults =
        [.shape (.outOfRange "chance percent" 101 span)] := by
  intro x before after span
  have h : Numeral.IsIn {} before ⟨.chance, x.one.token span⟩ after :=
    ⟨by decide +kernel, by decide +kernel, by decide +kernel⟩
  have hfits : x.Fits := by decide +kernel
  have hnot : ¬Measure.chance.Allows x.value := by decide +kernel
  obtain ⟨_, _, _, _, _, -, -, -, hout⟩ := ((ofSource_numbers {}).2 x .chance before after span h).2 hfits
  exact ⟨h, hfits, hnot, (hout hnot).2⟩

end Outcome

end Storyworld
