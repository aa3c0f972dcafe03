import Lintel.Proofs.Rules.Mending
import Lintel.Proofs.Source.Memo
import Mathlib.Data.List.Basic

/-!
# Words that parentheses keep apart

Parentheses keep apart what stands in front of them, what they hold and what comes behind. Where
they are dropped, a space is to take their place if words would be joined otherwise. What stands
outside is judged by its octets, and what stands inside by its characters. So there are two kinds
of blanks: the six of ASCII, which are blanks in both ways, and all others, the **wide** blanks,
which are blanks as characters while none of their octets is one.

`correct_keeps_apart` says what comes of it. Next to a word there is a blank octet after the
correction, except where the text inside begins or ends with a wide blank: there no space is put in,
and the word is joined to the wide blank
(`wideBlank_joined`). -/

namespace Lintel

namespace Rules

namespace RedundantParentheses

/-! ### Blanks, as characters and as octets -/

def isAsciiBlank (c : Char) : Bool :=
  c.toNat == 0x20 || (decide (0x09 ≤ c.toNat) && decide (c.toNat ≤ 0x0D))

/-- A blank that is not one of the six. -/
def isWideBlank (c : Char) : Bool :=
  isBlank c && !isAsciiBlank c

theorem isAsciiBlank_iff {c : Char} :
    isAsciiBlank c = true ↔ c.toNat = 0x20 ∨ 0x09 ≤ c.toNat ∧ c.toNat ≤ 0x0D := by
  simp [isAsciiBlank]

theorem isByteBlank_iff {b : UInt8} :
    isByteBlank b = true ↔ b.toNat = 0x20 ∨ 0x09 ≤ b.toNat ∧ b.toNat ≤ 0x0D := by
  simp [isByteBlank, ← UInt8.toNat_inj]

/-- **The octets of a character are blanks** if it is one of the six blanks of ASCII, and otherwise
none of them is. -/
theorem isByteBlank_of_mem {c : Char} {b : UInt8} (h : b ∈ String.utf8EncodeChar c) :
    isByteBlank b = isAsciiBlank c := by
  rw [Bool.eq_iff_iff, isByteBlank_iff, isAsciiBlank_iff]
  rcases Utf8.encodeChar_cases c with ⟨a, ha, hc, hone⟩ | hhigh
  · rw [hone, List.mem_singleton] at h
    have hcode : c.toNat = b.toNat := by
      rw [hc, h]
      exact Utf8.toNat_ofNat (by omega)
    rw [hcode]
  · -- neither the octet nor the character is below 0x80
    have hb := hhigh b h
    have hc : 0x80 ≤ c.toNat := by
      by_contra hlow
      have hoctet : (UInt8.ofNat c.toNat).toNat = c.toNat := Utf8.toNat_octet (by omega)
      have hone := Utf8.encodeChar_one (b := UInt8.ofNat c.toNat) (by omega)
      rw [hoctet, Char.ofNat_toNat] at hone
      rw [hone] at hhigh
      have hle := hhigh _ List.mem_cons_self
      omega
    omega

theorem any_head?_encode (cs : List Char) :
    (Utf8.encode cs).head?.any isByteBlank = cs.head?.any isAsciiBlank := by
  cases cs with
  | nil => rfl
  | cons c cs =>
    have hne : String.utf8EncodeChar c ≠ [] := String.utf8EncodeChar_ne_nil
    rw [Utf8.encode_cons, List.head?_append, List.head?_eq_some_head hne]
    exact isByteBlank_of_mem (List.head_mem hne)

theorem any_getLast?_encode (cs : List Char) :
    (Utf8.encode cs).getLast?.any isByteBlank = cs.getLast?.any isAsciiBlank := by
  rcases List.eq_nil_or_concat' cs with rfl | ⟨cs, c, rfl⟩
  · rfl
  · have hne : String.utf8EncodeChar c ≠ [] := String.utf8EncodeChar_ne_nil
    have hone : Utf8.encode [c] = String.utf8EncodeChar c := List.append_nil _
    -- The last octet belongs to the encoding of the last character; a blank of one octet is that
    -- octet.
    rw [Utf8.encode_append, hone, List.getLast?_append_of_ne_nil _ hne, List.getLast?_concat,
      List.getLast?_eq_some_getLast hne]
    exact isByteBlank_of_mem (List.getLast_mem hne)

/-! ### Spaces in the place of parentheses -/

/-- The octets end with a word, to which what comes behind might be joined. -/
def endsWord (bs : Bytes) : Bool :=
  bs.getLast?.any fun b => !isByteBlank b

/-- The octets begin with a word, which might be joined to what stands in front. A semicolon is
none. -/
def startsWord (bs : Bytes) : Bool :=
  bs.head?.any fun b => !isByteBlank b && b != 0x3B

/-- A space, or nothing. -/
def spaces (c : Bool) : List Char :=
  if c then [' '] else []

/-- A text with a space in front, if a word would be joined to it there. -/
def padFront (word : Bool) (cs : List Char) : List Char :=
  spaces (word && !isBlankChar cs.head?) ++ cs

/-- A text with a space behind, if a word would be joined to it there. -/
def padBack (word : Bool) (cs : List Char) : List Char :=
  cs ++ spaces (word && !isBlankChar cs.getLast?)

/-- What stands next to a word after the correction: a blank that stood there before, or a space. -/
def besides (c : Option Char) : Option Char :=
  if isBlankChar c then c else some ' '

/-- **It is one of the six blanks of ASCII**, unless a wide blank stood there before. -/
theorem any_besides (c : Option Char) : (besides c).any isAsciiBlank = !c.any isWideBlank := by
  have hspace : isAsciiBlank ' ' = true := by decide
  unfold besides
  split
  · -- a blank of its own: of the six, or a wide one
    next hblank =>
    cases c with
    | none => cases hblank
    | some c =>
      have hc : isBlank c = true := hblank
      simp [isWideBlank, hc]
  · next hblank =>
    cases c with
    | none => exact hspace
    | some c =>
      have hc : isBlank c = false := Bool.eq_false_iff.mpr hblank
      simp [isWideBlank, hc, hspace]

theorem head?_padFront (cs : List Char) : (padFront true cs).head? = besides cs.head? := by
  unfold padFront besides
  cases hblank : isBlankChar cs.head? <;> simp [spaces]

theorem getLast?_padBack (cs : List Char) : (padBack true cs).getLast? = besides cs.getLast? := by
  unfold padBack besides
  cases hblank : isBlankChar cs.getLast? <;> simp [spaces]

theorem head?_padBack (word : Bool) {cs : List Char} (h : cs ≠ []) :
    (padBack word cs).head? = cs.head? := by
  cases cs with
  | nil => exact absurd rfl h
  | cons c cs => rfl

theorem padFront_ne_nil (cs : List Char) : padFront true cs ≠ [] := by
  cases cs with
  | nil => exact List.cons_ne_nil _ _
  | cons c cs => exact List.append_ne_nil_of_right_ne_nil _ (List.cons_ne_nil c cs)

theorem any_getLast?_padFront (word : Bool) (cs : List Char) :
    (padFront word cs).getLast?.any isWideBlank = cs.getLast?.any isWideBlank := by
  by_cases hcs : cs = []
  · subst hcs
    cases word <;> decide
  · rw [padFront, List.getLast?_append_of_ne_nil _ hcs]

/-! ### What takes the place of parentheses -/

/-- A text that holds parentheses over a range: what stands in front of them, what they hold and
what comes behind. -/
structure Parenthesised (bs : Bytes) (start stop : Nat) (before : Bytes) (inner : List Char)
    (after : Bytes) : Prop where
  bytes : bs = before ++ 0x28 :: (Utf8.encode inner ++ 0x29 :: after)
  start : start = before.length
  stop : stop = before.length + (Utf8.encode inner).length + 2

namespace Parenthesised

variable {bs before after : Bytes} {inner : List Char} {start stop : Nat}
  (h : Parenthesised bs start stop before inner after)
include h

theorem take_start : bs.take start = before := by
  rw [h.bytes, h.start, List.take_left]

theorem drop_stop : bs.drop stop = after := by
  -- the text up to the closing parenthesis, and the rest
  have hsplit : bs = (before ++ 0x28 :: (Utf8.encode inner ++ [0x29])) ++ after := by
    rw [h.bytes]
    simp
  have hlength : stop = (before ++ 0x28 :: (Utf8.encode inner ++ [0x29])).length := by
    rw [h.stop]
    simp
    omega
  rw [hsplit, hlength, List.drop_left]

theorem slice_inner : slice bs ((start : Int) + 1) ((stop : Int) - 1) = Utf8.encode inner := by
  have hstart : (start : Int) + 1 = ((start + 1 : Nat) : Int) := rfl
  have hstop : (stop : Int) - 1 = ((stop - 1 : Nat) : Int) := by
    have := h.stop
    omega
  -- between the parentheses there are as many octets as those of the inner text
  have hlength : stop - 1 - (start + 1) = (Utf8.encode inner).length := by
    rw [h.start, h.stop]
    omega
  have hdrop : bs.drop (start + 1) = Utf8.encode inner ++ 0x29 :: after := by
    rw [h.bytes, h.start, List.append_cons, List.drop_left' (by simp)]
  rw [hstart, hstop, slice_natCast, hlength, hdrop, List.take_left]

theorem not_areBlank_before : (!areBlank (if 0 < (start : Int) then
    slice bs ((start : Int) - 1) (start : Int) else [0x20])) = endsWord before := by
  -- at the start of the text there is no octet, and nothing ends a word
  rcases List.eq_nil_or_concat' before with hnil | ⟨init, b, hinit⟩
  · have hzero : start = 0 := by rw [h.start, hnil, List.length_nil]
    rw [hzero, hnil]
    rfl
  · have hstart : start = init.length + 1 := by
      rw [h.start, hinit, List.length_append, List.length_singleton]
    have hprev : ((init.length + 1 : Nat) : Int) - 1 = (init.length : Int) := by omega
    have hdrop : bs.drop init.length
        = b :: 0x28 :: (Utf8.encode inner ++ 0x29 :: after) := by
      rw [h.bytes, hinit, List.append_assoc, List.drop_left]
      rfl
    rw [hstart, if_pos (by omega), hprev, slice_natCast, Nat.add_sub_cancel_left, hdrop, hinit,
      endsWord, List.getLast?_concat]
    simp [areBlank]

theorem startsWord_after : (!(slice bs (stop : Int) ((stop : Int) + 1)).isEmpty
    && !areBlank (slice bs (stop : Int) ((stop : Int) + 1))
    && slice bs (stop : Int) ((stop : Int) + 1) != [0x3B]) = startsWord after := by
  -- one octet is looked at, if there is one
  have hone : slice bs (stop : Int) ((stop : Int) + 1) = after.take 1 := by
    have hslice := slice_natCast bs stop (stop + 1)
    rw [Nat.add_sub_cancel_left, h.drop_stop] at hslice
    exact hslice
  rw [hone]
  cases after with
  | nil => rfl
  | cons b after => simp [areBlank, startsWord, bne]

/-- **What takes the place of parentheses** is what they hold, padded towards the words next to
it. -/
theorem unwrapped_eq {v : View} (hv : v.bytes = bs) :
    unwrapped v start stop = padBack (startsWord after) (padFront (endsWord before) inner) := by
  -- a space is put in if it is asked for
  have hfront : ∀ (c : Bool) (cs : List Char), (if c then ' ' :: cs else cs) = spaces c ++ cs := by
    intro c cs
    cases c <;> rfl
  have hback : ∀ (c : Bool) (cs : List Char), (if c then cs ++ [' '] else cs) = cs ++ spaces c := by
    intro c cs
    cases c <;> simp [spaces]
  unfold unwrapped
  simp only [hv, h.slice_inner, Utf8.decodeLossy_encode, h.startsWord_after, h.not_areBlank_before,
    hfront, hback]
  rfl

end Parenthesised

/-- **An edit that drops parentheses** is over a range that begins and ends with them. -/
theorem exists_parenthesised {v : View} (ht : Utf8.IsText v.bytes) {start stop : Int}
    (hrange : start < stop) {edit : Edit} (h : propose v start stop = .ok (some edit)) :
    (edit.start : Int) = start ∧ (edit.stop : Int) = stop ∧ ∃ before inner after,
      Parenthesised v.bytes edit.start edit.stop before inner after ∧
        edit.replacement.toList
          = padBack (startsWord after) (padFront (endsWord before) inner) := by
  unfold propose at h
  split at h
  · next hparens =>
    obtain ⟨hopen, hclose⟩ := hparens
    obtain ⟨hstart, hstop, htext⟩ := of_proposeEdit h
    refine ⟨hstart, hstop, ?_⟩
    rw [← hstart] at hopen htext hrange
    rw [← hstop] at hclose htext hrange
    obtain ⟨hlength, hcases⟩ := range_cases (by decide) edit.start_le_stop hopen hclose
    rcases hcases with ⟨heq, -⟩ | ⟨octets, -, hsplit, hroom⟩
    · omega
    · -- what the parentheses hold is text
      obtain ⟨inner, rfl⟩ : Utf8.IsText octets :=
        Utf8.isText_between (by decide) (by decide) (hsplit ▸ ht)
      have hbefore : (v.bytes.take edit.start).length = edit.start := by
        rw [List.length_take]
        omega
      have hparts : Parenthesised v.bytes edit.start edit.stop (v.bytes.take edit.start) inner
          (v.bytes.drop edit.stop) := ⟨hsplit, hbefore.symm, by omega⟩
      refine ⟨_, inner, _, hparts, ?_⟩
      rw [htext, String.toList_ofList, hparts.unwrapped_eq rfl]
  · cases h

/-- **What an edit does that drops parentheses.** It puts what they hold in their place, with a
space or nothing on each side. Behind a word the new octets begin with a blank one if and only if
what the parentheses hold does not begin with a wide blank, and before a word they end with a blank
one if and only if it does not end with one. -/
structure Unwraps (text : String) (edit : Edit) (before : Bytes) (inner : List Char)
    (after : Bytes) : Prop where
  parts : Parenthesised (Utf8.ofString text) edit.start edit.stop before inner after
  padded : ∃ left right, edit.replacement.toList = spaces left ++ inner ++ spaces right
  outcome : applyEdits (Utf8.ofString text) [edit] = before ++ edit.octets ++ after
  front : endsWord before = true →
    (edit.octets.head?.any isByteBlank = true ↔ inner.head?.any isWideBlank = false)
  back : startsWord after = true →
    (edit.octets.getLast?.any isByteBlank = true ↔ inner.getLast?.any isWideBlank = false)

end RedundantParentheses

open RedundantParentheses

variable {σ : Type}

/-- **Where parentheses are dropped, words are kept apart**, except by wide blanks. Whenever an edit
is answered for an issue, it is over the range of the issue, and there are parentheses at the ends
of the range. -/
theorem correct_keeps_apart (config : RuleConfig) (path : Option String) (text : String)
    (parsed : Except Fault Parsed) {i : Issue} (hrange : i.start < i.stop) {memory : σ} {edit : Edit}
    (h : (redundantParentheses.correct config (View.ofText path text parsed) i memory).answer
      = .ok (some edit)) :
    (edit.start : Int) = i.start ∧ (edit.stop : Int) = i.stop ∧
      ∃ before inner after, Unwraps text edit before inner after := by
  have ht : Utf8.IsText (View.ofText path text parsed).bytes := Utf8.isText_ofString text
  obtain ⟨hstart, hstop, before, inner, after, hparts, htext⟩ := exists_parenthesised ht hrange h
  refine ⟨hstart, hstop, before, inner, after, hparts, ⟨_, _, htext⟩, ?_, ?_, ?_⟩
  · -- the edit by itself: what is in front, what it puts there, and what is behind
    have htake : (Utf8.ofString text).take edit.start = before := hparts.take_start
    have hdrop : (Utf8.ofString text).drop edit.stop = after := hparts.drop_stop
    rw [applyEdits_cons (List.pairwise_singleton _ _), applyEdits_nil, Edit.splice, htake, hdrop]
  · -- a word ends in front: the first character of the replacement decides
    intro hword
    rw [Edit.octets, Utf8.ofString, any_head?_encode, htext, hword,
      head?_padBack _ (padFront_ne_nil inner), head?_padFront, any_besides, Bool.not_eq_true']
  · intro hword
    rw [Edit.octets, Utf8.ofString, any_getLast?_encode, htext, hword, getLast?_padBack, any_besides,
      any_getLast?_padFront, Bool.not_eq_true']

def issueOver (text : String) (start stop : Int) : Issue :=
  Rule.issueAt profile {} (View.ofText none text (.ok ⟨none, none⟩)) start stop message

def editOver (text : String) (start stop : Int) : Except Fault (Option Edit) :=
  (redundantParentheses.correct {} (View.ofText none text (.ok ⟨none, none⟩))
    (issueOver text start stop) ()).answer

/-- Between two letters that take two octets each, a space is put in on both sides. -/
theorem letters_kept_apart :
    (issueOver "é(x)é" 2 5).start < (issueOver "é(x)é" 2 5).stop ∧ ∃ edit,
      editOver "é(x)é" 2 5 = .ok (some edit) ∧ edit.replacement = " x " ∧
      (edit.start : Int) = (issueOver "é(x)é" 2 5).start ∧
      (edit.stop : Int) = (issueOver "é(x)é" 2 5).stop ∧
      ∃ before inner after, Unwraps "é(x)é" edit before inner after := by
  have hrange : (issueOver "é(x)é" 2 5).start < (issueOver "é(x)é" 2 5).stop := by decide
  have hedit : editOver "é(x)é" 2 5 = .ok (some ⟨2, 5, " x ", by decide⟩) := by decide +kernel
  exact ⟨hrange, _, hedit, rfl, correct_keeps_apart {} none _ _ hrange hedit⟩

/-- **A no-break space is joined to the word in front.** It is a blank as a character, so that no
space is put in, but its octets are none. -/
theorem wideBlank_joined :
    (issueOver "if(\u00a0x)" 2 7).start < (issueOver "if(\u00a0x)" 2 7).stop ∧ ∃ edit,
      editOver "if(\u00a0x)" 2 7 = .ok (some edit) ∧
      endsWord ((Utf8.ofString "if(\u00a0x)").take edit.start) = true ∧
      edit.octets.head?.any isByteBlank = false ∧
      applyEdits (Utf8.ofString "if(\u00a0x)") [edit] = Utf8.ofString "if\u00a0x" := by
  refine ⟨by decide, ⟨2, 7, "\u00a0x", by decide⟩, ?_⟩
  decide +kernel

end Rules

end Lintel
