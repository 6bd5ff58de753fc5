/-
**What decoding takes for a reference.**

A text is decoded from left to right.  At an ampersand that starts a reference the character that the
reference denotes stands for it, and decoding goes on behind its semicolon.  Everything else, other
ampersands included, stands for itself.

The digits of a number may have a plus sign before them.  No reference has an ampersand in its body, so
decoding meets each ampersand that it could take for the start of a reference, and a text without such
signs is decoded as if there were none.  A reference with a sign is replaced, where its text would have
been kept.

Main definitions:

* `PageTemplate.Markup.IsDigit` — a digit in either case, and its value;
* `PageTemplate.Markup.Denotes` — the character that the body of a reference denotes, where the digits
  of a number may have some signs before them;
* `PageTemplate.Markup.Reference` — a reference behind an ampersand;
* `PageTemplate.Markup.Decoded` — a text with its references replaced.

Main results:

* `PageTemplate.Markup.referent?_eq_some_iff`, `PageTemplate.Markup.reference?_eq_some_iff` — the
  references that are read;
* `PageTemplate.Markup.decoded_iff` — decoding replaces exactly these;
* `PageTemplate.Markup.decoded_unsigned_iff` — it leaves those with a sign alone only if there are none;
* `PageTemplate.Markup.decode_replaces` — both together.
-/

import Mathlib.Data.List.Forall2
import Mathlib.Data.Nat.Digits.Defs
import Mathlib.Tactic.IntervalCases
import Mathlib.Tactic.Ring
import PageTemplate.Markup.Reference

set_option relaxedAutoImplicit false
set_option autoImplicit false

namespace PageTemplate.Markup

open PageTemplate.Text

/-! ### Digits -/

/-- The character `c` is a digit of the base and has the value `n`.  A letter may be of either case. -/
def IsDigit (base : Nat) (c : Char) (n : Nat) : Prop :=
  n < base ∧ (c = n.digitChar ∨ c = n.digitChar.toUpper)

theorem digit?_digitChar {n : Nat} (h : n < 16) :
    digit? 16 n.digitChar = some n ∧ digit? 16 n.digitChar.toUpper = some n := by
  interval_cases n <;> decide

theorem digit?_of_le {base : Nat} (h : base ≤ 16) (c : Char) :
    digit? base c = (digit? 16 c).filter (· < base) := by
  unfold digit?
  simp only [Option.filter_filter]
  congr 1
  funext n
  by_cases hn : n < base
  · simp [hn, Nat.lt_of_lt_of_le hn h]
  · simp [hn]

/-- The letters that are digits are among the first characters. -/
theorem toNat_lt_of_digit? {c : Char} {n : Nat} (h : digit? 16 c = some n) : c.toNat < 103 := by
  by_contra hlarge
  have hno : ∀ hi : Char, hi.toNat < 103 → ¬c ≤ hi := fun hi hhi hle => by
    have : c.toNat ≤ hi.toNat := hle
    omega
  have hnone : digit? 16 c = none := by
    simp [digit?, hno '9' (by decide), hno 'f' (by decide), hno 'F' (by decide)]
  rw [hnone] at h
  cases h

theorem isDigit_of_digit? {c : Char} {n : Nat} (h : digit? 16 c = some n) : IsDigit 16 c n := by
  have hall : ∀ k < 103, ∀ m ∈ digit? 16 (Char.ofNat k),
      m < 16 ∧ (Char.ofNat k = m.digitChar ∨ Char.ofNat k = m.digitChar.toUpper) := by
    decide +kernel
  have hc := hall c.toNat (toNat_lt_of_digit? h) n (by rw [Char.ofNat_toNat]; exact h)
  rwa [Char.ofNat_toNat] at hc

/-- **The digits that are read**, and their values. -/
theorem digit?_eq_some_iff {base n : Nat} {c : Char} (hbase : base ≤ 16) :
    digit? base c = some n ↔ IsDigit base c n := by
  rw [digit?_of_le hbase, Option.filter_eq_some_iff, decide_eq_true_eq]
  constructor
  · rintro ⟨hc, hn⟩
    exact ⟨hn, (isDigit_of_digit? hc).2⟩
  · rintro ⟨hn, hc⟩
    obtain ⟨hlower, hupper⟩ := digit?_digitChar (Nat.lt_of_lt_of_le hn hbase)
    refine ⟨?_, hn⟩
    rcases hc with rfl | rfl
    · exact hlower
    · exact hupper

/-- A run of digits makes the number that has their values as digits. -/
theorem readDigits_eq_some_iff {base v m : Nat} {cs : List Char} (hbase : base ≤ 16) :
    readDigits base v cs = some m ↔ ∃ ns, List.Forall₂ (IsDigit base) cs ns ∧
      m = v * base ^ cs.length + Nat.ofDigits base ns.reverse := by
  induction cs generalizing v with
  | nil =>
      rw [readDigits]
      constructor
      · rintro h
        cases h
        exact ⟨[], .nil, by simp⟩
      · rintro ⟨ns, hns, rfl⟩
        cases hns
        simp
  | cons c cs ih =>
      rw [readDigits, Option.bind_eq_some_iff]
      have hvalue : ∀ (n : Nat) (ns : List Nat), cs.length = ns.length →
          (v * base + n) * base ^ cs.length + Nat.ofDigits base ns.reverse =
            v * base ^ (c :: cs).length + Nat.ofDigits base (n :: ns).reverse := by
        intro n ns hlength
        rw [List.reverse_cons, Nat.ofDigits_append, Nat.ofDigits_singleton, List.length_reverse,
          ← hlength, List.length_cons, Nat.pow_succ]
        ring
      constructor
      · rintro ⟨n, hn, hrest⟩
        obtain ⟨ns, hns, rfl⟩ := ih.1 hrest
        exact ⟨n :: ns, .cons ((digit?_eq_some_iff hbase).1 hn) hns, hvalue n ns hns.length_eq⟩
      · rintro ⟨_, hns, rfl⟩
        obtain _ | ⟨hn, hns⟩ := hns
        exact ⟨_, (digit?_eq_some_iff hbase).2 hn, ih.2 ⟨_, hns, (hvalue _ _ hns.length_eq).symm⟩⟩

/-- **The written numbers that are read**: at least one digit, with a plus sign before it or none. -/
theorem readNat_eq_some_iff {base m : Nat} {cs : List Char} (hbase : base ≤ 16) :
    readNat base cs = some m ↔ ∃ sign ∈ [[], ['+']], ∃ ds ns, cs = sign ++ ds ∧ ds ≠ [] ∧
      List.Forall₂ (IsDigit base) ds ns ∧ m = Nat.ofDigits base ns.reverse := by
  have hdigits : ∀ ds : List Char, readDigits base 0 ds = some m ↔
      ∃ ns, List.Forall₂ (IsDigit base) ds ns ∧ m = Nat.ofDigits base ns.reverse := by
    intro ds
    rw [readDigits_eq_some_iff hbase, Nat.zero_mul]
    simp only [Nat.zero_add]
  -- a sign is no digit, so it stands before digits or nowhere
  have hplus : ∀ (ds : List Char) (ns : List Nat),
      ¬List.Forall₂ (IsDigit base) ('+' :: ds) ns := by
    intro ds ns h
    obtain _ | ⟨hn, -⟩ := h
    rw [← digit?_eq_some_iff hbase, digit?_plus] at hn
    cases hn
  cases cs with
  | nil => simp
  | cons c cs =>
      by_cases hc : c = '+'
      · subst hc
        cases cs with
        | nil =>
            have hread : readNat base ['+'] = readDigits base 0 ['+'] := rfl
            rw [hread, hdigits]
            simp [hplus]
        | cons c cs =>
            rw [readNat, hdigits]
            simp [hplus]
      · rw [readNat_cons base c cs hc, hdigits]
        simp [hc]

/-! ### Bodies -/

/-- The body of a reference denotes a character: it is a name, or a number of at least one digit, where
one of the `signs` stands before the digits.  A number is a code point of a character, in decimal, or in
hexadecimal behind an `x` of either case. -/
inductive Denotes (signs : List (List Char)) : List Char → Char → Prop
  | name {body : List Char} {c : Char} (h : (body, c) ∈ namedCharacters) : Denotes signs body c
  | decimal {sign ds : List Char} {ns : List Nat} (hsign : sign ∈ signs) (hne : ds ≠ [])
      (hds : List.Forall₂ (IsDigit 10) ds ns) (hvalid : (Nat.ofDigits 10 ns.reverse).isValidChar) :
      Denotes signs ('#' :: (sign ++ ds)) (Char.ofNat (Nat.ofDigits 10 ns.reverse))
  | hexadecimal {x : Char} {sign ds : List Char} {ns : List Nat} (hx : x = 'x' ∨ x = 'X')
      (hsign : sign ∈ signs) (hne : ds ≠ []) (hds : List.Forall₂ (IsDigit 16) ds ns)
      (hvalid : (Nat.ofDigits 16 ns.reverse).isValidChar) :
      Denotes signs ('#' :: x :: (sign ++ ds)) (Char.ofNat (Nat.ofDigits 16 ns.reverse))

/-- The signs that may stand before the digits of a number: none, or a plus sign. -/
def numberSigns : List (List Char) := [[], ['+']]

theorem Denotes.mono {signs signs' : List (List Char)} {body : List Char} {c : Char}
    (h : Denotes signs body c) (hsub : signs ⊆ signs') : Denotes signs' body c := by
  cases h with
  | name h => exact .name h
  | decimal hsign hne hds hvalid => exact .decimal (hsub hsign) hne hds hvalid
  | hexadecimal hx hsign hne hds hvalid => exact .hexadecimal hx (hsub hsign) hne hds hvalid

theorem lookup_namedCharacters {body : List Char} {c : Char} :
    namedCharacters.lookup body = some c ↔ (body, c) ∈ namedCharacters := by
  constructor
  · intro h
    obtain ⟨before, behind, hsplit, -⟩ := List.lookup_eq_some_iff.1 h
    rw [hsplit]
    exact List.mem_append_right _ (List.mem_cons_self ..)
  · intro h
    have hall : ∀ p ∈ namedCharacters, namedCharacters.lookup p.1 = some p.2 := by decide
    exact hall _ h

theorem charOfCode?_eq_some_iff {n : Nat} {c : Char} :
    charOfCode? n = some c ↔ n.isValidChar ∧ c = Char.ofNat n := by
  rw [charOfCode?]
  split
  · next h => simp [h, eq_comm]
  · next h => simp [h]

/-- An `x` is no decimal digit. -/
theorem readNat_x {x : Char} (hx : x = 'x' ∨ x = 'X') (cs : List Char) :
    readNat 10 (x :: cs) = none := by
  rcases hx with rfl | rfl
  · rw [readNat_cons _ _ _ (by decide), readDigits]
    rfl
  · rw [readNat_cons _ _ _ (by decide), readDigits]
    rfl

theorem bodyCode?_eq_some_iff {body : List Char} {m : Nat} :
    bodyCode? body = some m ↔ (∃ cs, body = '#' :: cs ∧ readNat 10 cs = some m) ∨
      ∃ x cs, (x = 'x' ∨ x = 'X') ∧ body = '#' :: x :: cs ∧ readNat 16 cs = some m := by
  unfold bodyCode?
  split
  · simp [readNat_x (.inl rfl)]
  · simp [readNat_x (.inr rfl)]
  · next cs hlower hupper =>
      constructor
      · exact fun h => .inl ⟨cs, rfl, h⟩
      · rintro (⟨ds, hds, h⟩ | ⟨x, ds, rfl | rfl, hds, -⟩)
        · cases hds
          exact h
        · cases hds
          exact absurd rfl (hlower ds)
        · cases hds
          exact absurd rfl (hupper ds)
  · next hno =>
      constructor
      · intro h
        cases h
      · rintro (⟨cs, rfl, -⟩ | ⟨x, cs, -, rfl, -⟩)
        · exact absurd rfl (hno cs)
        · exact absurd rfl (hno (x :: cs))

/-- **The characters that bodies stand for.** -/
theorem referent?_eq_some_iff {body : List Char} {c : Char} :
    referent? body = some c ↔ Denotes numberSigns body c := by
  have hnumber : ((bodyCode? body).bind charOfCode? = some c) →
      Denotes numberSigns body c := by
    intro h
    obtain ⟨m, hm, hc⟩ := Option.bind_eq_some_iff.1 h
    obtain ⟨hvalid, rfl⟩ := charOfCode?_eq_some_iff.1 hc
    rcases bodyCode?_eq_some_iff.1 hm with ⟨cs, rfl, hcs⟩ | ⟨x, cs, hx, rfl, hcs⟩
    · obtain ⟨sign, hsign, ds, ns, rfl, hne, hds, rfl⟩ := (readNat_eq_some_iff (by decide)).1 hcs
      exact .decimal hsign hne hds hvalid
    · obtain ⟨sign, hsign, ds, ns, rfl, hne, hds, rfl⟩ := (readNat_eq_some_iff (by decide)).1 hcs
      exact .hexadecimal hx hsign hne hds hvalid
  -- no name starts as a number does
  have hname : ∀ cs : List Char, namedCharacters.lookup ('#' :: cs) = none := by
    intro cs
    rfl
  rw [referent?]
  constructor
  · intro h
    split at h
    · next d hd =>
        cases h
        exact .name (lookup_namedCharacters.1 hd)
    · exact hnumber h
  · intro h
    cases h with
    | name h => rw [lookup_namedCharacters.2 h]
    | decimal hsign hne hds hvalid =>
        have hm := (readNat_eq_some_iff (by decide)).2 ⟨_, hsign, _, _, rfl, hne, hds, rfl⟩
        rw [hname]
        exact Option.bind_eq_some_iff.2 ⟨_, bodyCode?_eq_some_iff.2 (.inl ⟨_, rfl, hm⟩),
          charOfCode?_eq_some_iff.2 ⟨hvalid, rfl⟩⟩
    | hexadecimal hx hsign hne hds hvalid =>
        have hm := (readNat_eq_some_iff (by decide)).2 ⟨_, hsign, _, _, rfl, hne, hds, rfl⟩
        rw [hname]
        exact Option.bind_eq_some_iff.2 ⟨_, bodyCode?_eq_some_iff.2 (.inr ⟨_, _, hx, rfl, hm⟩),
          charOfCode?_eq_some_iff.2 ⟨hvalid, rfl⟩⟩

/-- No character of a body is an ampersand. -/
theorem Denotes.notMem {body : List Char} {c : Char} (h : Denotes numberSigns body c) :
    '&' ∉ body := by
  have hdigits : ∀ {base : Nat} {ds : List Char} {ns : List Nat}, base ≤ 16 →
      List.Forall₂ (IsDigit base) ds ns → '&' ∉ ds := by
    intro base ds ns hbase hds hmem
    induction hds with
    | nil => cases hmem
    | cons hd _ ih =>
        rcases List.mem_cons.1 hmem with rfl | hmem
        · rw [← digit?_eq_some_iff hbase, digit?_of_le hbase] at hd
          cases hd
        · exact ih hmem
  have hsigns : ∀ sign ∈ numberSigns, '&' ∉ sign := by decide
  cases h with
  | name h =>
      have hall : ∀ p ∈ namedCharacters, '&' ∉ p.1 := by decide
      exact hall _ h
  | decimal hsign _ hds _ => simp [hsigns _ hsign, hdigits (by decide) hds]
  | hexadecimal hx hsign _ hds _ =>
      rcases hx with rfl | rfl <;> simp [hsigns _ hsign, hdigits (by decide) hds]

/-! ### References -/

/-- A reference behind an ampersand, with the character that it denotes and what stands behind it: its
body ends at the first semicolon, which is at most ten bytes behind the ampersand. -/
def Reference (signs : List (List Char)) (cs : List Char) (c : Char) (rest : List Char) : Prop :=
  ∃ body, cs = body ++ ';' :: rest ∧ ';' ∉ body ∧ byteSize body + 1 ≤ 10 ∧ Denotes signs body c

variable {signs : List (List Char)} {cs rest text out : List Char} {c : Char}

theorem bodyWithin_eq_some_iff {budget : Nat} {p : List Char × List Char} :
    bodyWithin budget cs = some p ↔
      cs = p.1 ++ ';' :: p.2 ∧ ';' ∉ p.1 ∧ byteSize p.1 ≤ budget := by
  induction cs generalizing budget p with
  | nil => simp [bodyWithin]
  | cons c cs ih =>
      obtain ⟨body, rest⟩ := p
      rw [bodyWithin]
      by_cases hc : c = ';'
      · subst hc
        rw [if_pos rfl]
        constructor
        · intro h
          cases h
          simp
        · rintro ⟨hsplit, hno, -⟩
          cases body with
          | nil => simpa using hsplit
          | cons d body =>
              cases hsplit
              exact absurd (List.mem_cons_self ..) hno
      · rw [if_neg hc]
        constructor
        · intro h
          split at h
          · next hle =>
              obtain ⟨⟨body', rest'⟩, hq, heq⟩ := Option.map_eq_some_iff.1 h
              obtain ⟨hsplit, hno, hsize⟩ := ih.1 hq
              cases heq
              refine ⟨by rw [hsplit]; rfl, by simp [hno, Ne.symm hc], ?_⟩
              simp only [byteSize_cons] at hsize ⊢
              omega
          · cases h
        · rintro ⟨hsplit, hno, hsize⟩
          cases body with
          | nil =>
              cases hsplit
              exact absurd rfl hc
          | cons d body =>
              cases hsplit
              rw [List.mem_cons, not_or] at hno
              simp only [byteSize_cons] at hsize
              rw [if_pos (by omega), Option.map_eq_some_iff]
              exact ⟨(body, rest), ih.2 ⟨rfl, hno.2, by simp only; omega⟩, rfl⟩

/-- **The references that are read.** -/
theorem reference?_eq_some_iff :
    reference? cs = some (c, rest) ↔ Reference numberSigns cs c rest := by
  rw [reference?, Option.bind_eq_some_iff]
  constructor
  · rintro ⟨⟨body, tail⟩, hbody, hc⟩
    obtain ⟨d, hd, heq⟩ := Option.map_eq_some_iff.1 hc
    cases heq
    obtain ⟨hsplit, hno, hsize⟩ := bodyWithin_eq_some_iff.1 hbody
    exact ⟨body, hsplit, hno, Nat.succ_le_succ hsize, referent?_eq_some_iff.1 hd⟩
  · rintro ⟨body, hsplit, hno, hsize, hc⟩
    refine ⟨(body, rest), bodyWithin_eq_some_iff.2 ⟨hsplit, hno, Nat.le_of_succ_le_succ hsize⟩, ?_⟩
    rw [Option.map_eq_some_iff]
    exact ⟨c, referent?_eq_some_iff.2 hc, rfl⟩

theorem Reference.mono {signs' : List (List Char)} (h : Reference signs cs c rest)
    (hsub : signs ⊆ signs') : Reference signs' cs c rest := by
  obtain ⟨body, hsplit, hno, hsize, hc⟩ := h
  exact ⟨body, hsplit, hno, hsize, hc.mono hsub⟩

/-- Signs before digits may be missing. -/
theorem nil_subset_numberSigns : [[]] ⊆ numberSigns := by decide

/-! ### Decoding -/

/-- A text with its references replaced, from left to right: an ampersand that starts no reference
stands for itself, as any other character does. -/
inductive Decoded (signs : List (List Char)) : List Char → List Char → Prop
  | nil : Decoded signs [] []
  | reference {cs rest out : List Char} {c : Char} (h : Reference signs cs c rest)
      (hrest : Decoded signs rest out) : Decoded signs ('&' :: cs) (c :: out)
  | ampersand {cs out : List Char} (h : ∀ c rest, ¬Reference signs cs c rest)
      (hcs : Decoded signs cs out) : Decoded signs ('&' :: cs) ('&' :: out)
  | plain {c : Char} {cs out : List Char} (h : c ≠ '&') (hcs : Decoded signs cs out) :
      Decoded signs (c :: cs) (c :: out)

theorem decoded_decode (text : List Char) : Decoded numberSigns text (decode text) := by
  induction text using decode.induct with
  | case1 =>
      rw [decode_nil]
      exact .nil
  | case2 cs d rest h ih =>
      rw [decode_reference h]
      exact .reference (reference?_eq_some_iff.1 h) ih
  | case3 cs h ih =>
      rw [decode_ampersand h]
      refine .ampersand (fun c rest hc => ?_) ih
      rw [← reference?_eq_some_iff, h] at hc
      cases hc
  | case4 c cs hc ih =>
      rw [decode_cons_of_ne cs hc]
      exact .plain hc ih

/-- **Decoding replaces exactly the references that are read.** -/
theorem decoded_iff : Decoded numberSigns text out ↔ out = decode text := by
  refine ⟨fun h => ?_, fun h => h ▸ decoded_decode text⟩
  induction h with
  | nil => rw [decode_nil]
  | reference h _ ih => rw [decode_reference (reference?_eq_some_iff.2 h), ih]
  | @ampersand cs out h _ ih =>
      have hnone : reference? cs = none := by
        cases hread : reference? cs with
        | none => rfl
        | some p => exact absurd (reference?_eq_some_iff.1 hread) (h p.1 p.2)
      rw [decode_ampersand hnone, ih]
  | plain h _ ih => rw [decode_cons_of_ne _ h, ih]

/-! ### Signs -/

/-- No reference in the text needs a sign. -/
def Unsigned (text : List Char) : Prop :=
  ∀ before cs c rest, text = before ++ '&' :: cs → Reference numberSigns cs c rest →
    Reference [[]] cs c rest

theorem Unsigned.of_append {before : List Char} (h : Unsigned (before ++ text)) : Unsigned text := by
  intro front cs c rest hsplit
  exact h (before ++ front) cs c rest (by rw [hsplit, List.append_assoc])

theorem Unsigned.tail {c : Char} (h : Unsigned (c :: text)) : Unsigned text := by
  rw [← List.singleton_append] at h
  exact h.of_append

/-- Characters without an ampersand among them can be put before a text. -/
theorem Unsigned.append {before : List Char} (h : Unsigned text) (hno : '&' ∉ before) :
    Unsigned (before ++ text) := by
  intro front cs c rest hsplit
  rcases List.append_eq_append_iff.1 hsplit with ⟨middle, hfront, htext⟩ | ⟨middle, hbefore, hcs⟩
  · exact h middle cs c rest htext
  · cases middle with
    | nil => exact h [] cs c rest hcs.symm
    | cons d middle =>
        cases hcs
        exact absurd (by rw [hbefore]; simp) hno

/-- An ampersand can be put before a text, if the reference that it starts needs no sign. -/
theorem Unsigned.ampersand (h : Unsigned cs) (hhead : ∀ c rest, Reference numberSigns cs c rest →
    Reference [[]] cs c rest) : Unsigned ('&' :: cs) := by
  intro front cs' c rest hsplit href
  cases front with
  | nil =>
      cases hsplit
      exact hhead c rest href
  | cons d front =>
      cases hsplit
      exact h front cs' c rest rfl href

/-- Where no reference needs a sign, a text is decoded as if there were no signs. -/
theorem Decoded.of_unsigned (h : Decoded numberSigns text out) (htext : Unsigned text) :
    Decoded [[]] text out := by
  induction h with
  | nil => exact .nil
  | @reference cs rest out c h _ ih =>
      have hplain := htext [] cs c rest rfl h
      obtain ⟨body, rfl, -⟩ := h
      refine .reference hplain (ih ?_)
      have hsplit : '&' :: (body ++ ';' :: rest) = ('&' :: body ++ [';']) ++ rest := by simp
      rw [hsplit] at htext
      exact htext.of_append
  | @ampersand cs out h _ ih =>
      exact .ampersand (fun c rest hc => h c rest (hc.mono nil_subset_numberSigns)) (ih htext.tail)
  | @plain c cs out h _ ih =>
      exact .plain h (ih htext.tail)

theorem decode_append {before : List Char} (hno : '&' ∉ before) (text : List Char) :
    decode (before ++ text) = before ++ decode text := by
  induction before with
  | nil => rfl
  | cons c before ih =>
      rw [List.mem_cons, not_or] at hno
      rw [List.cons_append, decode_cons_of_ne _ (Ne.symm hno.1), ih hno.2, List.cons_append]

/-- What is left where signs are not read is no shorter, and it is longer if there is a reference with
a sign. -/
theorem Decoded.length_le (h : Decoded [[]] text out) :
    (decode text).length ≤ out.length ∧
      ((decode text).length = out.length → Unsigned text) := by
  induction h with
  | nil =>
      refine ⟨by simp, fun _ before cs c rest hsplit => ?_⟩
      simp at hsplit
  | @reference cs rest out c h _ ih =>
      have hread := reference?_eq_some_iff.2 (h.mono nil_subset_numberSigns)
      rw [decode_reference hread]
      refine ⟨Nat.succ_le_succ ih.1, fun hlength => ?_⟩
      have hrest := ih.2 (Nat.succ.inj hlength)
      obtain ⟨body, hsplit, -, -, hc⟩ := id h
      have hamp := (hc.mono nil_subset_numberSigns).notMem
      have hbehind : Unsigned cs := by
        rw [hsplit, ← List.singleton_append, ← List.append_assoc]
        exact hrest.append (by simp [hamp])
      refine hbehind.ampersand fun c' rest' href => ?_
      rw [← reference?_eq_some_iff, hread] at href
      cases href
      exact h
  | @ampersand cs out h _ ih =>
      cases hread : reference? cs with
      | none =>
          rw [decode_ampersand hread]
          refine ⟨Nat.succ_le_succ ih.1, fun hlength => ?_⟩
          refine (ih.2 (Nat.succ.inj hlength)).ampersand fun c' rest' href => ?_
          rw [← reference?_eq_some_iff, hread] at href
          cases href
      | some p =>
          -- the reference has a sign, and is replaced by less than it is
          obtain ⟨d, rest⟩ := p
          rw [decode_reference hread]
          obtain ⟨body, hsplit, -, -, hc⟩ := reference?_eq_some_iff.1 hread
          have hkept : decode cs = body ++ ';' :: decode rest := by
            rw [hsplit, decode_append hc.notMem, decode_cons_of_ne _ (by decide)]
          have hle := ih.1
          rw [hkept, List.length_append, List.length_cons] at hle
          simp only [List.length_cons]
          exact ⟨by omega, fun hlength => by omega⟩
  | @plain c cs out h _ ih =>
      rw [decode_cons_of_ne _ h]
      refine ⟨Nat.succ_le_succ ih.1, fun hlength => ?_⟩
      rw [← List.singleton_append]
      exact (ih.2 (Nat.succ.inj hlength)).append (by simpa using Ne.symm h)

/-- **References with a sign are left alone only if there are none.** -/
theorem decoded_unsigned_iff : Decoded [[]] text (decode text) ↔ Unsigned text :=
  ⟨fun h => h.length_le.2 rfl, (decoded_decode text).of_unsigned⟩

/-- **What decoding replaces.**  It replaces the references, where a plus sign may stand before the
digits of a number, and nothing else.  So it replaces the references without signs, and nothing else,
exactly if there is no reference with one. -/
theorem decode_replaces (text : List Char) :
    (∀ out, Decoded numberSigns text out ↔ out = decode text) ∧
      (Decoded [[]] text (decode text) ↔ Unsigned text) :=
  ⟨fun _ => decoded_iff, decoded_unsigned_iff⟩

/-- A number with a plus sign before its digits is decoded, though without signs the text would have been
kept. -/
theorem decode_signed :
    decode "&#+65;".toList = ['A'] ∧ ¬Decoded [[]] "&#+65;".toList (decode "&#+65;".toList) ∧
      Decoded [[]] "&#+65;".toList "&#+65;".toList := by
  have htext : "&#+65;".toList = '&' :: ['#', '+', '6', '5', ';'] := rfl
  have hdecode : decode ('&' :: ['#', '+', '6', '5', ';']) = ['A'] := by
    rw [decode_reference (show reference? ['#', '+', '6', '5', ';'] = some ('A', []) by decide),
      decode_nil]
  have hno : ∀ c rest, ¬Reference [[]] ['#', '+', '6', '5', ';'] c rest := by
    rintro c rest ⟨body, hsplit, -, -, hc⟩
    cases hc with
    | name h =>
        have hall : ∀ p ∈ namedCharacters, p.1.head? ≠ some '#' := by decide
        cases body with
        | nil => cases hsplit
        | cons d body =>
            obtain ⟨rfl, -⟩ := List.cons.inj hsplit
            exact hall _ h rfl
    | decimal hsign hne hds _ =>
        cases List.mem_singleton.1 hsign
        cases hds with
        | nil => exact hne rfl
        | cons hd _ =>
            obtain ⟨rfl, -⟩ := List.cons.inj (List.cons.inj hsplit).2
            rw [← digit?_eq_some_iff (by decide), digit?_plus] at hd
            cases hd
    | hexadecimal hx _ _ _ _ =>
        obtain ⟨rfl, -⟩ := List.cons.inj (List.cons.inj hsplit).2
        rcases hx with h | h <;> cases h
  rw [htext, hdecode]
  refine ⟨rfl, fun h => ?_, ?_⟩
  · cases h with
    | reference h _ => exact hno _ _ h
  · refine .ampersand hno ?_
    refine .plain (by decide) (.plain (by decide) (.plain (by decide) (.plain (by decide) ?_)))
    exact .plain (by decide) .nil

end PageTemplate.Markup
