import Lintel.Proofs.Edit.Graded

/-!
# Where octets land

Edits take octets away and put others in their place. An octet that stands outside of all edits
**survives** them, and moves by what the edits before it have added. `Edit.landing` is the offset
that it moves to, told without reference to the order in which edits are applied or looked at.

That this is the right offset is `getElem?_applyEdits_landing`: the new octets have there what the
old ones had. The offsets that `mapRange` gives for a range of the old octets are related to it by
`landing_mem_mapRange`: an octet in the range that survives lands in the mapped range, wherever the
ends of the range may lie with respect to the edits, and also if they are no offsets of the text.

Both come down to one bound, `le_mapOffsetFrom`: of offsets that lie to the left of all edits, none
gets to the right of where a later offset is mapped to. It holds because edits that are apart take
away no more than there is.
-/

namespace Lintel

namespace Edit

/-- By how much the edit makes a text longer. -/
def growth (e : Edit) : Int :=
  (e.octets.length : Int) - ((e.stop : Int) - e.start)

/-- The octet at the offset is in the range of no edit. -/
def Survives (es : List Edit) (offset : Nat) : Prop :=
  ∀ e ∈ es, offset < e.start ∨ e.stop ≤ offset

/-- Where an octet that survives lands: it moves by the growth of the edits before it. -/
def landing : List Edit → Nat → Int
  | [], offset => offset
  | e :: es, offset =>
    if e.stop ≤ offset then landing es offset + e.growth else landing es offset

@[simp] theorem landing_nil (offset : Nat) : landing [] offset = offset := rfl

theorem landing_cons_of_le {e : Edit} {offset : Nat} (h : e.stop ≤ offset) (es : List Edit) :
    landing (e :: es) offset = landing es offset + e.growth := by
  rw [landing, if_pos h]

theorem landing_cons_of_lt {e : Edit} {offset : Nat} (h : offset < e.stop) (es : List Edit) :
    landing (e :: es) offset = landing es offset := by
  rw [landing, if_neg (Nat.not_le.mpr h)]

/-- An octet to the left of all edits stays where it is. -/
theorem landing_eq_self {es : List Edit} {offset : Nat} (h : ∀ e ∈ es, offset < e.start) :
    landing es offset = offset := by
  induction es with
  | nil => exact landing_nil offset
  | cons e es ih =>
    have hse := e.start_le_stop
    have hlt := h e List.mem_cons_self
    rw [landing_cons_of_lt (by omega), ih fun f hf => h f (List.mem_cons_of_mem _ hf)]

/-! ### The new octets -/

theorem getElem?_splice_left {data : Bytes} {e : Edit} {k : Nat} (hk : k < e.start)
    (hlen : k < data.length) : (splice data e)[k]? = data[k]? := by
  have htake : k < (data.take e.start).length := by
    rw [List.length_take]
    omega
  rw [splice, List.append_assoc, List.getElem?_append_left htake, List.getElem?_take_of_lt hk]

/-- To the right of an edit the octets are those of the old text, further to the right or to the
left. -/
theorem getElem?_splice_right {data : Bytes} {e : Edit} {k j : Nat} (hk : e.stop ≤ k)
    (hlen : k < data.length) (hj : (j : Int) = k + e.growth) : (splice data e)[j]? = data[k]? := by
  have hse := e.start_le_stop
  have hstart : (data.take e.start).length = e.start := by
    rw [List.length_take]
    omega
  unfold growth at hj
  -- counted from the end of the replacement
  have hj' : j = e.start + e.octets.length + (k - e.stop) := by omega
  have hfront : (data.take e.start ++ e.octets).length = e.start + e.octets.length := by
    rw [List.length_append, hstart]
  rw [splice, List.getElem?_append_right (by omega), hfront, List.getElem?_drop, hj']
  congr 1
  omega

/-- An octet that lies behind `q`, as all edits do, does not land before `q`. -/
theorem le_landing {es : List Edit} (h : es.Pairwise fun a b => a.stop < b.start) {q offset : Nat}
    (hes : ∀ e ∈ es, q ≤ e.start) (hq : q ≤ offset) : (q : Int) ≤ landing es offset := by
  induction es generalizing q with
  | nil =>
    rw [landing_nil]
    omega
  | cons e es ih =>
    obtain ⟨hfirst, hrest⟩ := List.pairwise_cons.mp h
    have hqe := hes e List.mem_cons_self
    by_cases hstop : e.stop ≤ offset
    · -- the other edits lie behind this one
      have hle := ih hrest (fun f hf => Nat.le_of_lt (hfirst f hf)) hstop
      rw [landing_cons_of_le hstop, growth]
      omega
    · rw [landing_cons_of_lt (by omega)]
      exact ih hrest (fun f hf => hes f (List.mem_cons_of_mem _ hf)) hq

/-- **An octet that survives is found where it lands.** -/
theorem getElem?_applyEdits_landing {data : Bytes} {es : List Edit}
    (h : es.Pairwise fun a b => a.stop < b.start) {offset : Nat} (ho : offset < data.length)
    (hs : Survives es offset) :
    ∃ k : Nat, landing es offset = k ∧ (applyEdits data es)[k]? = data[offset]? := by
  induction es with
  | nil => exact ⟨offset, landing_nil offset, by rw [applyEdits_nil]⟩
  | cons e es ih =>
    obtain ⟨hfirst, hrest⟩ := List.pairwise_cons.mp h
    obtain ⟨k, hk, hoctet⟩ := ih hrest fun f hf => hs f (List.mem_cons_of_mem _ hf)
    have hse := e.start_le_stop
    -- the octet is there after the other edits, so the text reaches as far
    have hlen : k < (applyEdits data es).length := by
      rw [List.getElem?_eq_getElem ho] at hoctet
      exact (List.getElem?_eq_some_iff.mp hoctet).1
    rw [applyEdits_cons h]
    rcases hs e List.mem_cons_self with hlt | hle
    · -- all edits lie behind the octet
      have hself : landing es offset = offset := by
        refine landing_eq_self fun f hf => ?_
        have hf := hfirst f hf
        omega
      obtain rfl : k = offset := by omega
      refine ⟨k, ?_, ?_⟩
      · rw [landing_cons_of_lt (by omega), hk]
      · rw [getElem?_splice_left hlt hlen, hoctet]
    · have hbound := le_landing hrest (fun f hf => Nat.le_of_lt (hfirst f hf)) hle
      have hgrowth : e.growth = (e.octets.length : Int) - ((e.stop : Int) - e.start) := rfl
      refine ⟨(landing es offset + e.growth).toNat, ?_, ?_⟩
      · rw [landing_cons_of_le hle]
        omega
      · rw [getElem?_splice_right (by omega) hlen (by omega), hoctet]

/-! ### Mapped ranges -/

/-- Edits that are apart from each other and given from the left to the right are looked at in this
order. -/
theorem ascending_of_separated {es : List Edit} (h : es.Pairwise fun a b => a.stop < b.start) :
    ascending es = es := by
  refine List.mergeSort_of_pairwise (h.imp fun {a b} hab => ?_)
  have ha := a.start_le_stop
  rw [decide_eq_true_eq]
  omega

theorem mapOffsetFrom_nil (offset : Int) (which : RangeEnd) (shift : Int) :
    mapOffsetFrom offset which shift [] = offset + shift := rfl

theorem mapOffsetFrom_cons (offset : Int) (which : RangeEnd) (shift : Int) (e : Edit)
    (es : List Edit) :
    mapOffsetFrom offset which shift (e :: es)
      = if (e.stop : Int) ≤ offset then mapOffsetFrom offset which (shift + e.growth) es
        else if (e.start : Int) < offset then
          e.start + shift + (match which with | .first => 0 | .last => (e.octets.length : Int))
        else offset + shift := rfl

/-- **What lies to the left of all edits stays to the left** of where a later offset is mapped to,
whatever end of a range that is. -/
theorem le_mapOffsetFrom {es : List Edit} (h : es.Pairwise fun a b => a.stop < b.start)
    {q offset : Int} (hes : ∀ e ∈ es, q ≤ e.start) (hq : q ≤ offset) (which : RangeEnd)
    (shift : Int) : q + shift ≤ mapOffsetFrom offset which shift es := by
  induction es generalizing q shift with
  | nil =>
    rw [mapOffsetFrom_nil]
    omega
  | cons e es ih =>
    obtain ⟨hfirst, hrest⟩ := List.pairwise_cons.mp h
    have hqe := hes e List.mem_cons_self
    rw [mapOffsetFrom_cons]
    split
    · next hstop =>
      -- the edit takes away what lies between its ends, and they both lie behind `q`
      have hbehind : ∀ f ∈ es, (e.stop : Int) ≤ f.start := by
        intro f hf
        have hlt := hfirst f hf
        omega
      have hle := ih hrest hbehind hstop (shift + e.growth)
      have hgrowth : e.growth = (e.octets.length : Int) - ((e.stop : Int) - e.start) := rfl
      omega
    · split
      · cases which <;> simp only <;> omega
      · omega

theorem mapOffsetFrom_eq_landing {es : List Edit} (h : es.Pairwise fun a b => a.stop < b.start)
    {offset : Nat} (hs : Survives es offset) (which : RangeEnd) (shift : Int) :
    mapOffsetFrom offset which shift es = landing es offset + shift := by
  induction es generalizing shift with
  | nil => rw [mapOffsetFrom_nil, landing_nil]
  | cons e es ih =>
    obtain ⟨hfirst, hrest⟩ := List.pairwise_cons.mp h
    have hse := e.start_le_stop
    rw [mapOffsetFrom_cons]
    -- An edit behind the octet ends the search, one before it shifts the octet.
    rcases hs e List.mem_cons_self with hlt | hle
    · have hself : landing es offset = offset := by
        refine landing_eq_self fun f hf => ?_
        have hf := hfirst f hf
        omega
      rw [if_neg (by omega), if_neg (by omega), landing_cons_of_lt (by omega), hself]
    · rw [if_pos (by omega), landing_cons_of_le hle,
        ih hrest (fun f hf => hs f (List.mem_cons_of_mem _ hf))]
      omega

/-- The start of a range is not mapped behind an octet of it that survives. -/
theorem mapOffsetFrom_first_le {es : List Edit} (h : es.Pairwise fun a b => a.stop < b.start)
    {offset : Nat} (hs : Survives es offset) {start : Int} (hstart : start ≤ offset) (shift : Int) :
    mapOffsetFrom start .first shift es ≤ mapOffsetFrom offset .first shift es := by
  induction es generalizing shift with
  | nil =>
    rw [mapOffsetFrom_nil, mapOffsetFrom_nil]
    omega
  | cons e es ih =>
    obtain ⟨hfirst, hrest⟩ := List.pairwise_cons.mp h
    have hse := e.start_le_stop
    have hbehind : ∀ f ∈ es, (e.start : Int) ≤ f.start := by
      intro f hf
      have hlt := hfirst f hf
      omega
    by_cases hstop : (e.stop : Int) ≤ start
    · -- both lie behind the edit
      rw [mapOffsetFrom_cons, mapOffsetFrom_cons, if_pos hstop, if_pos (by omega)]
      exact ih hrest (fun f hf => hs f (List.mem_cons_of_mem _ hf)) _
    · by_cases hinside : (e.start : Int) < start
      · -- the range begins inside the edit, so its start goes to the start of the edit
        have hle : (e.start : Int) + shift ≤ mapOffsetFrom offset .first shift (e :: es) :=
          le_mapOffsetFrom h (List.forall_mem_cons.mpr ⟨Int.le_refl _, hbehind⟩) (by omega) .first
            shift
        rw [mapOffsetFrom_cons, if_neg hstop, if_pos hinside]
        simpa using hle
      · have hbehind' : ∀ f ∈ e :: es, start ≤ f.start :=
          List.forall_mem_cons.mpr ⟨by omega, fun f hf => by have := hbehind f hf; omega⟩
        have hle := le_mapOffsetFrom h hbehind' hstart .first shift
        rw [mapOffsetFrom_cons, if_neg hstop, if_neg hinside]
        exact hle

/-- The end of a range is mapped behind every octet of it that survives. -/
theorem lt_mapOffsetFrom_last {es : List Edit} (h : es.Pairwise fun a b => a.stop < b.start)
    {offset : Nat} (hs : Survives es offset) {stop : Int} (hstop : (offset : Int) < stop)
    (shift : Int) : mapOffsetFrom offset .last shift es < mapOffsetFrom stop .last shift es := by
  induction es generalizing shift with
  | nil =>
    rw [mapOffsetFrom_nil, mapOffsetFrom_nil]
    omega
  | cons e es ih =>
    obtain ⟨hfirst, hrest⟩ := List.pairwise_cons.mp h
    have hse := e.start_le_stop
    rcases hs e List.mem_cons_self with hlt | hle
    · -- the octet stays, and what comes next to it does not get in front of it
      have hbehind : ∀ f ∈ e :: es, (offset : Int) + 1 ≤ f.start := by
        intro f hf
        rcases List.mem_cons.mp hf with rfl | hf
        · omega
        · have hlt := hfirst f hf
          omega
      have hnext : (offset : Int) + 1 ≤ stop := by omega
      have hle := le_mapOffsetFrom h hbehind hnext .last shift
      have hself : mapOffsetFrom offset .last shift (e :: es) = offset + shift := by
        rw [mapOffsetFrom_cons, if_neg (by omega), if_neg (by omega)]
      omega
    · rw [mapOffsetFrom_cons, mapOffsetFrom_cons, if_pos (by omega), if_pos (by omega)]
      exact ih hrest (fun f hf => hs f (List.mem_cons_of_mem _ hf)) _

end Edit

/-- **An octet of a range that survives lands in the mapped range.** -/
theorem landing_mem_mapRange {es : List Edit} (h : es.Pairwise fun a b => a.stop < b.start)
    {offset : Nat} (hs : Edit.Survives es offset) {start stop : Int} (hstart : start ≤ offset)
    (hstop : (offset : Int) < stop) :
    (mapRange start stop es).1 ≤ Edit.landing es offset ∧
      Edit.landing es offset < (mapRange start stop es).2 := by
  have hascending := Edit.ascending_of_separated h
  -- The octet stays on its side of both ends, and its own image is where it lands.
  have hfirst := Edit.mapOffsetFrom_first_le h hs hstart 0
  have hlast := Edit.lt_mapOffsetFrom_last h hs hstop 0
  rw [Edit.mapOffsetFrom_eq_landing h hs, Int.add_zero] at hfirst hlast
  unfold mapRange mapOffset
  rw [hascending]
  exact ⟨hfirst, hlast⟩

end Lintel
