import HathorLedger.Common.Decimal

/-!
# The text of a path

`bip32_path_format` writes the numbers, quotes and slashes of a path one after the other, each with
`snprintf` behind what is already there. After each write it looks at the length of what has been
written: this tells that there was no room at all, but not that the text was cut off.

## Main definitions

* `snprintf`, `bip32PathFormat`: the function of `common/bip32.c` and the library call it uses.
* `pathText`: the text of a path.

## Main results

* `cstr_of_shown`: what a text is that is shown.
* `showsPath_iff`: for which paths and capacities the path is shown whole or not at all.
-/

namespace HathorLedger

/-- `snprintf(out + offset, size, text)`: a text that is too long is cut off, and what is written
ends with a NUL. -/
def snprintf (out : Bytes) (offset size : ℕ) (text : Bytes) : Bytes :=
  if size = 0 then out else memmove out offset (text.take (size - 1) ++ [0])

/-- One write of `bip32_path_format`, from the offset and the cells before it to those after it, or
`none` where the function gives up. -/
def formatPart (outLen : ℕ) (text : Bytes) (s : ℕ × Bytes) : Option (ℕ × Bytes) :=
  let size := sizeSub outLen s.1
  let out := snprintf s.2 s.1 size text
  let written := (cstr (out.drop s.1)).length
  if written = 0 ∨ written ≥ size then none else some (s.1 + written, out)

/-- The loop of `bip32_path_format` over the components. -/
def bip32PathFormatLoop (outLen : ℕ) : List ℕ → ℕ × Bytes → Option (ℕ × Bytes)
  | [], s => some s
  | c :: path, s => do
    let s ← formatPart outLen (decimalText (c % 2 ^ 31)) s
    let s ← if c / 2 ^ 31 % 2 ≠ 0 then formatPart outLen [39] s else some s
    let s ← if path ≠ [] then formatPart outLen [47] s else some s
    bip32PathFormatLoop outLen path s

/-- `bip32_path_format`. -/
def bip32PathFormat (path : List ℕ) (out : Bytes) (outLen : ℕ) : Bool × Bytes :=
  if path.length = 0 ∨ path.length > maxBip32Path then (false, out)
  else
    match bip32PathFormatLoop outLen path (0, out) with
    | none => (false, memmove out 0 (List.replicate outLen 0))
    | some (_, out) => (true, out)

/-! ### The text -/

/-- A component in decimal, with a quote if the top bit is set. -/
def componentText (c : ℕ) : Bytes :=
  decimalText (c % 2 ^ 31) ++ if c / 2 ^ 31 % 2 ≠ 0 then [39] else []

/-- The components, separated by slashes. -/
def pathText (path : List ℕ) : Bytes := [47].intercalate (path.map componentText)

/-- The components, each with a slash behind it. -/
def slashedText (path : List ℕ) : Bytes := path.flatMap fun c => componentText c ++ [47]

theorem pathText_append_singleton (path : List ℕ) (c : ℕ) :
    pathText (path ++ [c]) = slashedText path ++ componentText c := by
  induction path with
  | nil => simp [pathText, slashedText, List.intercalate]
  | cons d path ih =>
    obtain ⟨e, rest, hrest⟩ := List.exists_cons_of_ne_nil (l := path ++ [c]) (by simp)
    rw [slashedText, List.flatMap_cons, List.append_assoc, ← slashedText, ← ih, List.cons_append,
      hrest]
    simp [pathText, List.intercalate]

/-! ### The parts that are written -/

/-- The texts that are written for a component. -/
def componentParts (c : ℕ) : List Bytes :=
  decimalText (c % 2 ^ 31) :: if c / 2 ^ 31 % 2 ≠ 0 then [[39]] else []

/-- The texts that are written for components with a slash behind each of them. -/
def slashedParts (path : List ℕ) : List Bytes := path.flatMap fun c => componentParts c ++ [[47]]

theorem flatten_componentParts (c : ℕ) : (componentParts c).flatten = componentText c := by
  unfold componentParts componentText
  split_ifs <;> simp

theorem flatten_slashedParts (path : List ℕ) : (slashedParts path).flatten = slashedText path := by
  induction path with
  | nil => rfl
  | cons c path ih =>
    rw [slashedText, List.flatMap_cons, ← slashedText, ← ih, slashedParts, List.flatMap_cons,
      List.flatten_append, List.flatten_append, flatten_componentParts]
    rfl

/-- One round of the loop writes the parts of a component, and a slash if another one follows. -/
theorem bip32PathFormatLoop_cons (outLen c : ℕ) (path : List ℕ) (s : ℕ × Bytes) :
    bip32PathFormatLoop outLen (c :: path) s =
      ((componentParts c ++ if path ≠ [] then [[47]] else []).foldlM
        (fun s text => formatPart outLen text s) s).bind (bip32PathFormatLoop outLen path) := by
  rw [bip32PathFormatLoop, componentParts, List.cons_append, List.foldlM_cons]
  cases formatPart outLen (decimalText (c % 2 ^ 31)) s with
  | none => rfl
  | some s => split_ifs <;> simp [Option.bind_assoc]

/-- The loop writes the parts of the components one after the other. -/
theorem bip32PathFormatLoop_eq (outLen : ℕ) (path : List ℕ) (c : ℕ) (s : ℕ × Bytes) :
    bip32PathFormatLoop outLen (path ++ [c]) s =
      (slashedParts path ++ componentParts c).foldlM (fun s text => formatPart outLen text s) s := by
  induction path generalizing s with
  | nil =>
    rw [List.nil_append, bip32PathFormatLoop_cons, if_neg (by simp), List.append_nil]
    exact Option.bind_fun_some _
  | cons d path ih =>
    rw [List.cons_append, bip32PathFormatLoop_cons, if_pos (by simp), slashedParts,
      List.flatMap_cons, List.append_assoc, ← slashedParts]
    generalize componentParts d ++ [[47]] = parts
    rw [List.foldlM_append]
    exact congrArg (Option.bind _) (funext ih)

/-- No part is empty, and none contains a NUL. -/
theorem part_ne {path : List ℕ} {c : ℕ} {part : Bytes}
    (h : part ∈ slashedParts path ++ componentParts c) : part ≠ [] ∧ ∀ x ∈ part, x ≠ 0 := by
  have hcomponent : ∀ {c : ℕ} {part : Bytes}, part ∈ componentParts c →
      part ≠ [] ∧ ∀ x ∈ part, x ≠ 0 := by
    intro c part h
    rw [componentParts, List.mem_cons] at h
    rcases h with rfl | h
    · exact ⟨decimalText_ne_nil _, fun x hx => decimalText_ne hx (by decide)⟩
    · split_ifs at h
      · rw [List.mem_singleton.1 h]
        simp
      · exact absurd h List.not_mem_nil
  rcases List.mem_append.1 h with h | h
  · obtain ⟨d, -, h⟩ := List.mem_flatMap.1 h
    rcases List.mem_append.1 h with h | h
    · exact hcomponent h
    · rw [List.mem_singleton.1 h]
      simp
  · exact hcomponent h

/-! ### Writing -/

/-- The cells start with `text`, and the offset stands behind it. -/
structure Written (outLen : ℕ) (text : Bytes) (s : ℕ × Bytes) : Prop where
  offset_eq : s.1 = text.length
  length_eq : s.2.length = outLen
  prefix_cells : text <+: s.2
  lt : text.length < outLen

/-- A part that is written into a room of more than one cell is cut off at the end of the room. -/
theorem formatPart_eq {outLen : ℕ} {text part : Bytes} {s : ℕ × Bytes} (h : Written outLen text s)
    (hpart : part ≠ []) (hne : ∀ c ∈ part, c ≠ 0) (hroom : text.length + 1 < outLen) :
    ∃ s', formatPart outLen part s = some s' ∧
      Written outLen ((text ++ part).take (outLen - 1)) s' ∧
      (text ++ part).take (outLen - 1) ++ [0] <+: s'.2 := by
  obtain ⟨rest, hrest⟩ := h.prefix_cells
  have hlen := h.length_eq
  have hpos := List.length_pos_iff.2 hpart
  have hsize : sizeSub outLen s.1 = outLen - text.length := by
    rw [h.offset_eq, sizeSub_of_le h.lt.le]
  set written := part.take (outLen - text.length - 1) with hwritten
  have htext : (text ++ part).take (outLen - 1) = text ++ written := by
    rw [List.take_append, List.take_of_length_le (by omega), hwritten]
    congr 2
    omega
  have hcells : snprintf s.2 s.1 (outLen - text.length) part =
      text ++ written ++ 0 :: rest.drop (written.length + 1) := by
    rw [snprintf, if_neg (by omega), h.offset_eq, ← hrest, memmove, List.take_left, ← hwritten,
      List.length_append, List.length_singleton]
    simp
  have hwritten_pos : written.length ≠ 0 := by
    rw [hwritten, List.length_take]
    omega
  have hwritten_lt : written.length < outLen - text.length := by
    rw [hwritten, List.length_take]
    omega
  have hcstr : cstr ((text ++ written ++ 0 :: rest.drop (written.length + 1)).drop s.1) =
      written := by
    rw [h.offset_eq, List.append_assoc, List.drop_left,
      cstr_append fun x hx => hne x (List.take_subset _ _ hx)]
  refine ⟨(s.1 + written.length, text ++ written ++ 0 :: rest.drop (written.length + 1)), ?_, ?_, ?_⟩
  · simp only [formatPart, hsize, hcells, hcstr]
    rw [if_neg (by omega)]
  · rw [htext]
    refine ⟨by rw [h.offset_eq, List.length_append], ?_, ?_, ?_⟩
    · rw [← hcells, snprintf, if_neg (by omega), length_memmove, hlen]
      rw [h.offset_eq, List.length_append, ← hwritten, List.length_singleton]
      omega
    · exact List.prefix_append ..
    · rw [List.length_append]
      omega
  · rw [htext]
    exact ⟨rest.drop (written.length + 1), by simp⟩

theorem formatPart_eq_none {outLen : ℕ} {text part : Bytes} {s : ℕ × Bytes}
    (h : Written outLen text s) (hroom : text.length + 1 = outLen) :
    formatPart outLen part s = none := by
  obtain ⟨rest, hrest⟩ := h.prefix_cells
  have hsize : sizeSub outLen s.1 = 1 := by
    rw [h.offset_eq, sizeSub_of_le h.lt.le]
    omega
  have hcells : (snprintf s.2 s.1 1 part).drop s.1 = 0 :: rest.drop 1 := by
    rw [snprintf, if_neg (by decide), h.offset_eq, ← hrest, memmove]
    simp
  simp only [formatPart, hsize, hcells]
  rw [if_pos (.inl rfl)]

/-- Cutting a text off does not change what a cut of a longer text leaves. -/
theorem take_take_append (n : ℕ) (a b : Bytes) : (a.take n ++ b).take n = (a ++ b).take n := by
  rcases Nat.le_total a.length n with h | h
  · rw [List.take_of_length_le h]
  · rw [List.take_append_of_le_length h, List.take_append_of_le_length (by simp [h]), List.take_take,
      min_self]

/-- All parts are written if there is room behind the last part but one; the last one is cut off at
the end of the cells. -/
theorem foldlM_formatPart {outLen : ℕ} {parts : List Bytes} {last text : Bytes} {s : ℕ × Bytes}
    (h : Written outLen text s) (hparts : ∀ part ∈ parts ++ [last], part ≠ [] ∧ ∀ x ∈ part, x ≠ 0) :
    (text.length + parts.flatten.length + 1 < outLen →
      ∃ s', (parts ++ [last]).foldlM (fun s text => formatPart outLen text s) s = some s' ∧
        s'.2.length = outLen ∧
        (text ++ (parts ++ [last]).flatten).take (outLen - 1) ++ [0] <+: s'.2) ∧
    (outLen ≤ text.length + parts.flatten.length + 1 →
      (parts ++ [last]).foldlM (fun s text => formatPart outLen text s) s = none) := by
  induction parts generalizing text s with
  | nil =>
    obtain ⟨hlast, hlast0⟩ := hparts last (by simp)
    have hlt := h.lt
    simp only [List.nil_append, List.flatten_nil, List.length_nil, Nat.add_zero, List.foldlM_cons,
      List.foldlM_nil, Option.bind_eq_bind, List.flatten_cons, List.append_nil]
    refine ⟨fun hroom => ?_, fun hroom => ?_⟩
    · obtain ⟨s', hs', hwritten, hstart⟩ := formatPart_eq h hlast hlast0 hroom
      exact ⟨s', by rw [hs']; rfl, hwritten.length_eq, hstart⟩
    · rw [formatPart_eq_none h (by omega)]
      rfl
  | cons part parts ih =>
    obtain ⟨hpart, hpart0⟩ := hparts part (by simp)
    have hlt := h.lt
    have hpos := List.length_pos_iff.2 hpart
    rw [List.cons_append, List.foldlM_cons, List.flatten_cons, List.flatten_cons, List.length_append]
    by_cases hroom : text.length + 1 = outLen
    · refine ⟨fun hlt => absurd hlt (by omega), fun _ => ?_⟩
      rw [formatPart_eq_none h hroom]
      rfl
    · obtain ⟨s', hs', hwritten, -⟩ := formatPart_eq h hpart hpart0 (by omega)
      have hih := ih hwritten fun p hp => hparts p (List.mem_cons_of_mem _ hp)
      have hlen : ((text ++ part).take (outLen - 1)).length =
          min (outLen - 1) (text.length + part.length) := by
        rw [List.length_take, List.length_append]
      have htake : ((text ++ part).take (outLen - 1) ++ (parts ++ [last]).flatten).take (outLen - 1) =
          (text ++ (part ++ (parts ++ [last]).flatten)).take (outLen - 1) := by
        rw [← List.append_assoc, take_take_append]
      rw [htake, hlen] at hih
      rw [hs']
      exact ⟨fun hlt => hih.1 (by omega), fun hge => hih.2 (by omega)⟩

/-! ### The function -/

/-- The path is shown whole or not at all: the function returns true exactly for a length from 1 to
`MAX_BIP32_PATH` and a capacity with room for the text and a NUL, which are then written; where
there is no room, the cells are cleared. -/
structure ShowsPath (path : List ℕ) (out : Bytes) (outLen : ℕ) : Prop where
  shown_iff : (bip32PathFormat path out outLen).1 = true ↔
    (1 ≤ path.length ∧ path.length ≤ maxBip32Path) ∧ (pathText path).length + 1 ≤ outLen
  text : (bip32PathFormat path out outLen).1 = true →
    pathText path ++ [0] <+: (bip32PathFormat path out outLen).2
  cleared : 1 ≤ path.length → path.length ≤ maxBip32Path →
    (bip32PathFormat path out outLen).1 = false →
    (bip32PathFormat path out outLen).2 = List.replicate outLen 0

/-- The last component has no quote, and the cells end within its digits. -/
def CutsLastNumber (path : List ℕ) (outLen : ℕ) : Prop :=
  ∃ front last, path = front ++ [last] ∧ path.length ≤ maxBip32Path ∧ last / 2 ^ 31 % 2 = 0 ∧
    (slashedText front).length + 1 < outLen ∧ outLen ≤ (pathText path).length

theorem written_nil {outLen : ℕ} {out : Bytes} (hout : out.length = outLen) (hpos : 1 ≤ outLen) :
    Written outLen [] (0, out) :=
  ⟨rfl, hout, List.nil_prefix, hpos⟩

/-- What the function leaves, in terms of the last part that it writes. -/
theorem bip32PathFormat_append {front : List ℕ} {last outLen : ℕ} {out : Bytes} {parts : List Bytes}
    {part : Bytes} (hout : out.length = outLen) (hpos : 1 ≤ outLen)
    (hlen : (front ++ [last]).length ≤ maxBip32Path)
    (hparts : slashedParts front ++ componentParts last = parts ++ [part]) :
    (parts.flatten.length + 1 < outLen → ∃ out',
      bip32PathFormat (front ++ [last]) out outLen = (true, out') ∧
        (pathText (front ++ [last])).take (outLen - 1) ++ [0] <+: out') ∧
    (outLen ≤ parts.flatten.length + 1 →
      bip32PathFormat (front ++ [last]) out outLen = (false, List.replicate outLen 0)) := by
  have hflatten : (parts ++ [part]).flatten = pathText (front ++ [last]) := by
    rw [← hparts, List.flatten_append, flatten_slashedParts, flatten_componentParts,
      pathText_append_singleton]
  obtain ⟨hshown, hnone⟩ := @foldlM_formatPart outLen parts part [] (0, out)
    (written_nil hout hpos) fun p hp => part_ne (hparts ▸ hp)
  rw [List.length_nil, Nat.zero_add, List.nil_append, hflatten] at hshown
  rw [List.length_nil, Nat.zero_add] at hnone
  rw [bip32PathFormat, if_neg (by rw [List.length_append, List.length_singleton] at hlen ⊢; omega),
    bip32PathFormatLoop_eq, hparts]
  refine ⟨fun hroom => ?_, fun hroom => ?_⟩
  · obtain ⟨s', hs', -, hstart⟩ := hshown hroom
    exact ⟨s'.2, by rw [hs'], hstart⟩
  · rw [hnone hroom, memmove_zero, List.length_replicate, List.drop_eq_nil_of_le hout.le,
      List.append_nil]

/-- Without a quote, the digits are the last part. -/
theorem parts_of_unquoted {front : List ℕ} {last : ℕ} (h : last / 2 ^ 31 % 2 = 0) :
    slashedParts front ++ componentParts last =
      slashedParts front ++ [decimalText (last % 2 ^ 31)] := by
  rw [componentParts, if_neg (not_not.2 h)]

/-- A quote is a part of its own, of one character. -/
theorem parts_of_quoted {front : List ℕ} {last : ℕ} (h : last / 2 ^ 31 % 2 ≠ 0) :
    slashedParts front ++ componentParts last =
        (slashedParts front ++ [decimalText (last % 2 ^ 31)]) ++ [[39]] ∧
      (pathText (front ++ [last])).length =
        (slashedParts front ++ [decimalText (last % 2 ^ 31)]).flatten.length + 1 := by
  constructor
  · rw [componentParts, if_pos h, List.append_assoc]
    rfl
  · rw [pathText_append_singleton, componentText, if_pos h, List.flatten_append,
      flatten_slashedParts]
    simp [Nat.add_assoc]

theorem pathText_ne {front : List ℕ} {last : ℕ} {x : UInt8} (hx : x ∈ pathText (front ++ [last])) :
    x ≠ 0 := by
  rw [pathText_append_singleton, ← flatten_slashedParts, ← flatten_componentParts,
    ← List.flatten_append] at hx
  obtain ⟨part, hpart, hmem⟩ := List.mem_flatten.1 hx
  exact (part_ne hpart).2 x hmem

/-- A text that is shown is that of the path, up to the end of the cells. They end behind the first
character of the last part. -/
theorem cstr_of_shown_parts {front : List ℕ} {last outLen : ℕ} {out out' : Bytes}
    {parts : List Bytes} {part : Bytes} (hout : out.length = outLen) (hpos : 1 ≤ outLen)
    (hlen : (front ++ [last]).length ≤ maxBip32Path)
    (hparts : slashedParts front ++ componentParts last = parts ++ [part])
    (h : bip32PathFormat (front ++ [last]) out outLen = (true, out')) :
    parts.flatten.length + 1 < outLen ∧
      cstr out' = (pathText (front ++ [last])).take (outLen - 1) := by
  obtain ⟨hshown, hcleared⟩ := bip32PathFormat_append hout hpos hlen hparts
  by_cases hroom : parts.flatten.length + 1 < outLen
  · obtain ⟨out'', heq, rest, rfl⟩ := hshown hroom
    obtain rfl := (Prod.mk.inj (h.symm.trans heq)).2
    refine ⟨hroom, ?_⟩
    rw [List.append_assoc]
    exact cstr_append (fun x hx => pathText_ne (List.mem_of_mem_take hx)) rest
  · rw [hcleared (by omega)] at h
    cases h

/-- Nothing is shown without a cell. -/
theorem one_le_of_shown {path : List ℕ} {outLen : ℕ} {out out' : Bytes} (hout : out.length = outLen)
    (h : bip32PathFormat path out outLen = (true, out')) : 1 ≤ outLen := by
  by_contra hzero
  obtain rfl : outLen = 0 := by omega
  obtain rfl := List.length_eq_zero_iff.1 hout
  cases path with
  | nil => cases h
  | cons c path =>
    have hnone : formatPart 0 (decimalText (c % 2 ^ 31)) (0, []) = none := by
      simp [formatPart, snprintf, sizeSub_of_le, cstr]
    have hloop : bip32PathFormatLoop 0 (c :: path) (0, []) = none := by
      rw [bip32PathFormatLoop, hnone]
      rfl
    have hfalse : (bip32PathFormat (c :: path) [] 0).1 = false := by
      rw [bip32PathFormat, hloop]
      split
      · rfl
      · rfl
    rw [h] at hfalse
    cases hfalse

/-- A text that is shown is that of the path, unless the digits of the last number are cut. -/
theorem cstr_of_shown {path : List ℕ} {outLen : ℕ} {out out' : Bytes} (hout : out.length = outLen)
    (h : bip32PathFormat path out outLen = (true, out')) :
    cstr out' = (pathText path).take (outLen - 1) ∧
      (outLen ≤ (pathText path).length → CutsLastNumber path outLen) := by
  have hpos := one_le_of_shown hout h
  rcases List.eq_nil_or_concat path with rfl | ⟨front, last, rfl⟩
  · cases h
  rw [List.concat_eq_append] at h ⊢
  have hlen : (front ++ [last]).length ≤ maxBip32Path := by
    by_contra hlong
    rw [bip32PathFormat, if_pos (.inr (not_le.1 hlong))] at h
    cases h
  by_cases hquote : last / 2 ^ 31 % 2 = 0
  · obtain ⟨hroom, htext⟩ := cstr_of_shown_parts hout hpos hlen (parts_of_unquoted hquote) h
    rw [flatten_slashedParts] at hroom
    exact ⟨htext, fun hcut => ⟨front, last, rfl, hlen, hquote, hroom, hcut⟩⟩
  · obtain ⟨hparts, hwhole⟩ := @parts_of_quoted front last hquote
    obtain ⟨hroom, htext⟩ := cstr_of_shown_parts hout hpos hlen hparts h
    exact ⟨htext, fun hcut => absurd hcut (by omega)⟩

/-- The function meets its purpose unless the cells end within the last part that it writes. -/
theorem showsPath_iff_of_parts {front : List ℕ} {last outLen : ℕ} {out : Bytes}
    {parts : List Bytes} {part : Bytes} (hout : out.length = outLen) (hpos : 1 ≤ outLen)
    (hlen : (front ++ [last]).length ≤ maxBip32Path)
    (hparts : slashedParts front ++ componentParts last = parts ++ [part]) :
    ShowsPath (front ++ [last]) out outLen ↔
      ¬(parts.flatten.length + 1 < outLen ∧ outLen ≤ (pathText (front ++ [last])).length) := by
  obtain ⟨hshown, hcleared⟩ := bip32PathFormat_append hout hpos hlen hparts
  have hlonger : parts.flatten.length < (pathText (front ++ [last])).length := by
    have hpart := (@part_ne front last part (by rw [hparts]; simp)).1
    rw [pathText_append_singleton, ← flatten_slashedParts, ← flatten_componentParts,
      ← List.flatten_append, hparts, List.flatten_append, List.length_append]
    simpa using List.length_pos_iff.2 hpart
  have hone : 1 ≤ (front ++ [last]).length := by simp
  constructor
  · rintro h ⟨hroom, hcut⟩
    obtain ⟨out', heq, -⟩ := hshown hroom
    have := (h.shown_iff.1 (by rw [heq])).2
    omega
  · intro h
    by_cases hroom : parts.flatten.length + 1 < outLen
    · obtain ⟨out', heq, hstart⟩ := hshown hroom
      rw [List.take_of_length_le (by omega)] at hstart
      refine ⟨?_, fun _ => by rwa [heq], fun _ _ hfalse => ?_⟩
      · rw [heq]
        exact iff_of_true rfl ⟨⟨hone, hlen⟩, by omega⟩
      · rw [heq] at hfalse
        cases hfalse
    · have heq := hcleared (by omega)
      refine ⟨?_, fun htrue => ?_, fun _ _ _ => by rw [heq]⟩
      · rw [heq]
        exact iff_of_false Bool.false_ne_true fun hfits => by omega
      · rw [heq] at htrue
        cases htrue

/-- The path is shown whole or not at all except where the cells end within the digits of a last
component without a quote. -/
theorem showsPath_iff (path : List ℕ) (out : Bytes) (outLen : ℕ) (hout : out.length = outLen)
    (hpos : 1 ≤ outLen) : ShowsPath path out outLen ↔ ¬CutsLastNumber path outLen := by
  rcases List.eq_nil_or_concat path with rfl | ⟨front, last, rfl⟩
  · refine iff_of_true ⟨by simp [bip32PathFormat], by simp [bip32PathFormat], by simp⟩ ?_
    rintro ⟨front, last, hpath, -⟩
    simp at hpath
  rw [List.concat_eq_append]
  have hcuts : CutsLastNumber (front ++ [last]) outLen ↔
      (front ++ [last]).length ≤ maxBip32Path ∧ last / 2 ^ 31 % 2 = 0 ∧
        (slashedText front).length + 1 < outLen ∧
          outLen ≤ (pathText (front ++ [last])).length := by
    constructor
    · rintro ⟨front', last', hpath, h⟩
      obtain ⟨rfl, hlast⟩ := List.append_inj' hpath rfl
      rwa [← List.singleton_inj.1 hlast] at h
    · exact fun h => ⟨front, last, rfl, h⟩
  rw [hcuts]
  by_cases hlen : (front ++ [last]).length ≤ maxBip32Path
  · by_cases hquote : last / 2 ^ 31 % 2 = 0
    · rw [showsPath_iff_of_parts hout hpos hlen (parts_of_unquoted hquote), flatten_slashedParts]
      simp only [hlen, hquote, true_and]
    · obtain ⟨hparts, hwhole⟩ := @parts_of_quoted front last hquote
      rw [showsPath_iff_of_parts hout hpos hlen hparts]
      exact iff_of_true (by omega) fun h => hquote h.2.1
  · have hformat : bip32PathFormat (front ++ [last]) out outLen = (false, out) := by
      rw [bip32PathFormat, if_pos (.inr (not_le.1 hlen))]
    refine iff_of_true ⟨?_, ?_, fun _ h => absurd h hlen⟩ fun h => hlen h.1
    · rw [hformat]
      exact iff_of_false Bool.false_ne_true fun h => hlen h.1.2
    · rw [hformat]
      simp

/-- Four cells hold the path `12'` whole. -/
theorem showsPath_iff_sample : ShowsPath [0x8000000C] [0, 0, 0, 0] 4 := by
  refine (showsPath_iff [0x8000000C] [0, 0, 0, 0] 4 rfl (by decide)).2 ?_
  rintro ⟨front, last, hpath, -, hplain, -⟩
  have hlast : some 0x8000000C = some last := by
    simpa using congrArg List.getLast? hpath
  rw [← Option.some.inj hlast] at hplain
  exact absurd hplain (by decide)

/-- The path `1234` in three cells is cut off to `12`. -/
theorem showsPath_fails : ¬∀ (path : List ℕ) (out : Bytes) (outLen : ℕ), out.length = outLen →
    1 ≤ outLen → ShowsPath path out outLen := by
  intro h
  have := (h [1234] [0, 0, 0] 3 rfl (by decide)).shown_iff
  revert this
  decide +kernel

end HathorLedger
