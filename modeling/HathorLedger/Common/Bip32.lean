import HathorLedger.Common.Buffer

/-!
# Accepted paths

`bip32_path_read` accepts a path of at most five components whose fourth component is at most 1 and
whose fifth is at most `MAX_DERIVATION_INDEX`. A path that it rejects may have been written to the
output, but then it breaks one of these bounds.

A path is sent as the number of its components and their big-endian bytes. `WirePath` bundles the
components with the bounds, so that its values are the paths that a read accepts.

## Main definitions

* `Bip32Path.Accepted`: the path has been read in full and accepted.
* `Bip32Path.Allowed`: the bounds on the length and on the components.
* `pathComponents`, `Bip32Path.written`: the components in some bytes, and the path with them.
* `WirePath`, `WirePath.bytes`: paths within the bounds and their serialisation.

## Main results

* `Bip32Path.Accepted.allowed`: accepted paths are allowed.
* `Buffer.Wf.readBip32Path_cons`: what `buffer_read_bip32_path` does with the unread bytes.
* `components_written`, `inRange_written_iff`: the path that a read leaves, and its checks.
-/

namespace HathorLedger

/-- A read of a buffer has accepted the path. -/
def Bip32Path.Accepted (path : Bip32Path) : Prop :=
  ∃ (cdata : Buffer) (out : Bip32Path) (rest : Buffer), cdata.readBip32Path out = (true, path, rest)

/-- The path has at most five components, and those of the change level and of the index are small
enough where they are present. -/
structure Bip32Path.Allowed (path : Bip32Path) : Prop where
  length_le : path.length ≤ maxBip32Path
  change_le : ∀ c, path.components[3]? = some c → c ≤ 1
  index_le : ∀ c, path.components[4]? = some c → c ≤ maxDerivationIndex

theorem bip32PathRead_allowed {input : Bytes} {inLen : ℕ} {out path : Bip32Path}
    (h : bip32PathRead input inLen out = (true, path)) : path.Allowed := by
  unfold bip32PathRead at h
  split_ifs at h with hshort
  · cases h
  dsimp only at h
  split_ifs at h with hcomplete hindex hchange
  · cases h
  · cases h
  · cases h
  obtain rfl := (Prod.mk.inj h).2
  rw [not_or, not_or] at hshort
  have hcell : ∀ {i c : ℕ} {path : List ℕ} {n : ℕ}, (path.take n)[i]? = some c →
      n > i ∧ path.getD i 0 = c := by
    intro i c path n hc
    rw [List.getElem?_take] at hc
    split_ifs at hc with hlt
    exact ⟨hlt, by rw [List.getD_eq_getElem?_getD, hc, Option.getD_some]⟩
  refine ⟨not_lt.1 hshort.2.1, fun c hc => ?_, fun c hc => ?_⟩
  · obtain ⟨hlt, rfl⟩ := hcell hc
    exact not_lt.1 fun hgt => hchange ⟨hlt, hgt⟩
  · obtain ⟨hlt, rfl⟩ := hcell hc
    exact not_lt.1 fun hgt => hindex ⟨hlt, hgt⟩

theorem Bip32Path.Accepted.allowed {path : Bip32Path} (h : path.Accepted) : path.Allowed := by
  obtain ⟨cdata, out, rest, hread⟩ := h
  unfold Buffer.readBip32Path at hread
  cases hpath : bip32PathRead (cdata.ptr.drop cdata.offset) (sizeSub cdata.size cdata.offset) out with
  | mk accepted out' =>
    rw [hpath] at hread
    cases accepted with
    | false => cases hread
    | true =>
      obtain rfl : out' = path := (Prod.mk.inj (Prod.mk.inj hread).2).1
      exact bip32PathRead_allowed hpath

/-! ### What a read does -/

/-- The components in the first `4 * n` bytes. -/
def pathComponents : ℕ → Bytes → List ℕ
  | 0, _ => []
  | n + 1, b => beValue (b.take 4) :: pathComponents n (b.drop 4)

/-- The cells with components written to them from cell `i` on. -/
def setComponents : ℕ → List ℕ → List ℕ → List ℕ
  | _, [], path => path
  | i, c :: components, path => setComponents (i + 1) components (path.set i c)

/-- The path that a read of `n` components from the bytes `b` leaves in `out`. -/
def Bip32Path.written (out : Bip32Path) (n : ℕ) (b : Bytes) : Bip32Path where
  length := n
  path := setComponents 0 (pathComponents n b) out.path

/-- The checks of `bip32_path_read` on the components. -/
def Bip32Path.InRange (path : Bip32Path) : Prop :=
  ¬(path.length > 4 ∧ path.path.getD 4 0 > maxDerivationIndex) ∧
    ¬(path.length > 3 ∧ path.path.getD 3 0 > 1)

instance (path : Bip32Path) : Decidable path.InRange := inferInstanceAs (Decidable (_ ∧ _))

@[simp] theorem length_pathComponents (n : ℕ) (b : Bytes) : (pathComponents n b).length = n := by
  induction n generalizing b with
  | zero => rfl
  | succ n ih => rw [pathComponents, List.length_cons, ih]

/-- The components depend on their bytes only. -/
theorem pathComponents_congr {n : ℕ} {a b : Bytes} (h : a.take (4 * n) = b.take (4 * n)) :
    pathComponents n a = pathComponents n b := by
  induction n generalizing a b with
  | zero => rfl
  | succ n ih =>
    have hfirst := congrArg (List.take 4) h
    have hrest := congrArg (List.drop 4) h
    rw [List.take_take, List.take_take, min_eq_left (by omega)] at hfirst
    rw [List.drop_take, List.drop_take, Nat.mul_succ, Nat.add_sub_cancel] at hrest
    rw [pathComponents, pathComponents, hfirst, ih hrest]

theorem Bip32Path.written_congr {out : Bip32Path} {n : ℕ} {a b : Bytes}
    (h : a.take (4 * n) = b.take (4 * n)) : out.written n a = out.written n b := by
  rw [Bip32Path.written, Bip32Path.written, pathComponents_congr h]

theorem bip32PathReadLoop_eq {input : Bytes} {inLen n i offset : ℕ} {path : List ℕ}
    (h : offset + 4 * n ≤ inLen) :
    bip32PathReadLoop input inLen n i offset path =
      (true, setComponents i (pathComponents n (input.drop offset)) path) := by
  induction n generalizing i offset path with
  | zero => rfl
  | succ n ih =>
    rw [bip32PathReadLoop, if_neg (by omega), ih (by omega), pathComponents, setComponents,
      List.drop_drop]
    rfl

/-- What `buffer_read_bip32_path` does with the unread bytes. -/
theorem Buffer.Wf.readBip32Path_cons {b : Buffer} (h : b.Wf) {x : UInt8} {tail : Bytes}
    (hr : b.rest = x :: tail) (out : Bip32Path) :
    b.readBip32Path out =
      if x.toNat > maxBip32Path ∨ 4 * x.toNat > tail.length then (false, out, b)
      else if (out.written x.toNat tail).InRange then
        (true, out.written x.toNat tail, b.advance (1 + 4 * x.toNat))
      else (false, out.written x.toNat tail, b) := by
  have hlen : b.rest.length = tail.length + 1 := by rw [hr, List.length_cons]
  have hfirst : byteAt (b.ptr.drop b.offset) 0 = x.toNat := by
    rw [← byteAt_take Nat.zero_lt_one, h.take_drop_ptr (by omega), hr]
    rfl
  have hpath : bip32PathRead (b.ptr.drop b.offset) (sizeSub b.size b.offset) out =
      if x.toNat > maxBip32Path ∨ 4 * x.toNat > tail.length then (false, out)
      else (decide (out.written x.toNat tail).InRange, out.written x.toNat tail) := by
    rw [bip32PathRead, hfirst, h.remaining, hlen]
    by_cases hshort : x.toNat > maxBip32Path ∨ 4 * x.toNat > tail.length
    · rw [if_pos hshort, if_pos (by omega)]
    · have hbytes : ((b.ptr.drop b.offset).drop 1).take (4 * x.toNat) = tail.take (4 * x.toNat) := by
        have htake := h.take_drop_ptr (n := 4 * x.toNat + 1) (by omega)
        rw [hr] at htake
        have hdrop := congrArg (List.drop 1) htake
        rwa [List.drop_take, Nat.add_sub_cancel, List.take_succ_cons, List.drop_succ_cons,
          List.drop_zero] at hdrop
      have hloop := @bip32PathReadLoop_eq (b.ptr.drop b.offset) (tail.length + 1) x.toNat 0 1
        out.path (by omega)
      rw [pathComponents_congr hbytes] at hloop
      rw [if_neg hshort, if_neg (by omega)]
      simp only [hloop, Bool.not_true, Bool.false_eq_true, if_false]
      split_ifs with hindex hchange
      · exact Prod.ext (decide_eq_false fun hrange => hrange.1 hindex).symm rfl
      · exact Prod.ext (decide_eq_false fun hrange => hrange.2 hchange).symm rfl
      · exact Prod.ext (decide_eq_true ⟨hindex, hchange⟩).symm rfl
  rw [Buffer.readBip32Path, hpath]
  by_cases hshort : x.toNat > maxBip32Path ∨ 4 * x.toNat > tail.length
  · rw [if_pos hshort, if_pos hshort]
    rfl
  · rw [if_neg hshort, if_neg hshort]
    by_cases hrange : (out.written x.toNat tail).InRange
    · have hseek : b.seekCur (1 + 4 * (out.written x.toNat tail).length) =
          (true, b.advance (1 + 4 * x.toNat)) :=
        h.seekCur_eq (show 1 + 4 * x.toNat ≤ _ by omega)
      simp [hrange, hseek]
    · simp [hrange]

/-! ### Serialised paths -/

/-- The paths that `bip32_path_read` accepts, as they are sent. -/
structure WirePath where
  components : List ℕ
  length_le : components.length ≤ maxBip32Path
  lt : ∀ c ∈ components, c < 2 ^ 32
  change_le : ∀ c, components[3]? = some c → c ≤ 1
  index_le : ∀ c, components[4]? = some c → c ≤ maxDerivationIndex

/-- The serialised path: the number of components and their big-endian bytes. -/
def WirePath.bytes (p : WirePath) : Bytes :=
  UInt8.ofNat p.components.length :: p.components.flatMap (beBytes 4)

/-- What a read of the serialised path leaves in `out`. -/
def WirePath.store (p : WirePath) (out : Bip32Path) : Bip32Path :=
  out.written p.components.length (p.components.flatMap (beBytes 4))

/-- The record holds the path in its first cells. -/
structure WirePath.StoredIn (p : WirePath) (path : Bip32Path) : Prop where
  length_eq : path.length = p.components.length
  components_eq : path.components = p.components

theorem pathComponents_flatMap {components : List ℕ} (h : ∀ c ∈ components, c < 2 ^ 32)
    (more : Bytes) :
    pathComponents components.length (components.flatMap (beBytes 4) ++ more) = components := by
  induction components with
  | nil => rfl
  | cons c components ih =>
    rw [List.forall_mem_cons] at h
    have hvalue : beValue (beBytes 4 c) = c := by
      rw [beValue_beBytes, Nat.mod_eq_of_lt (h.1.trans_le (by norm_num))]
    rw [List.length_cons, List.flatMap_cons, List.append_assoc, pathComponents,
      List.take_left' (length_beBytes 4 c), List.drop_left' (length_beBytes 4 c), hvalue, ih h.2]

theorem flatMap_pathComponents {n : ℕ} {b : Bytes} (h : 4 * n ≤ b.length) :
    (pathComponents n b).flatMap (beBytes 4) = b.take (4 * n) := by
  induction n generalizing b with
  | zero => rfl
  | succ n ih =>
    have hlen : (b.take 4).length = 4 := by rw [List.length_take]; omega
    have hfirst : beBytes 4 (beValue (b.take 4)) = b.take 4 := by
      have hbytes := beBytes_beValue (b.take 4)
      rwa [hlen] at hbytes
    rw [pathComponents, List.flatMap_cons, hfirst, ih (by rw [List.length_drop]; omega),
      Nat.mul_succ, Nat.add_comm, List.take_add]

theorem lt_of_mem_pathComponents {n c : ℕ} {b : Bytes} (h : c ∈ pathComponents n b) :
    c < 2 ^ 32 := by
  induction n generalizing b with
  | zero => exact absurd h List.not_mem_nil
  | succ n ih =>
    rcases List.mem_cons.1 h with rfl | h
    · refine (beValue_lt _).trans_le ?_
      calc 256 ^ (b.take 4).length ≤ 256 ^ 4 :=
            Nat.pow_le_pow_right (by decide) (List.length_take_le 4 b)
        _ = 2 ^ 32 := by norm_num
    · exact ih h

/-- Components that fit into the cells stand there from cell `i` on. -/
theorem setComponents_eq {i : ℕ} {components path : List ℕ}
    (h : i + components.length ≤ path.length) :
    setComponents i components path = memmove path i components := by
  induction components generalizing i path with
  | nil => simp [setComponents, memmove]
  | cons c components ih =>
    rw [List.length_cons] at h
    have htake : (path.take i).length = i := List.length_take_of_le (by omega)
    have hset : (path.set i c).take (i + 1) = path.take i ++ [c] := by
      rw [List.set_eq_take_append_cons_drop, if_pos (by omega), List.take_append, htake,
        List.take_of_length_le (by omega), Nat.add_sub_cancel_left]
      rfl
    rw [setComponents, ih (by rw [List.length_set]; omega), memmove, memmove, hset,
      List.drop_set_of_lt (by omega), List.length_cons, Nat.add_assoc, Nat.add_comm 1]
    simp

section Stored

variable {out : Bip32Path} {n : ℕ} {b : Bytes}

theorem path_written (hout : out.path.length = maxBip32Path) (hn : n ≤ maxBip32Path) :
    (out.written n b).path = pathComponents n b ++ out.path.drop n := by
  rw [Bip32Path.written, setComponents_eq (by rw [length_pathComponents]; omega), memmove_zero,
    length_pathComponents]

theorem components_written (hout : out.path.length = maxBip32Path) (hn : n ≤ maxBip32Path) :
    (out.written n b).components = pathComponents n b := by
  rw [Bip32Path.components, path_written hout hn]
  exact List.take_left' (length_pathComponents n b)

theorem inRange_written_iff (hout : out.path.length = maxBip32Path) (hn : n ≤ maxBip32Path) :
    (out.written n b).InRange ↔ (∀ c, (pathComponents n b)[3]? = some c → c ≤ 1) ∧
      ∀ c, (pathComponents n b)[4]? = some c → c ≤ maxDerivationIndex := by
  have hcell : ∀ i bound : ℕ, ¬(n > i ∧ (out.written n b).path.getD i 0 > bound) ↔
      ∀ c, (pathComponents n b)[i]? = some c → c ≤ bound := by
    intro i bound
    rw [path_written hout hn, not_and, List.getD_eq_getElem?_getD]
    constructor
    · intro h c hc
      have hi : i < n := by
        have := (List.getElem?_eq_some_iff.1 hc).1
        rwa [length_pathComponents] at this
      rw [List.getElem?_append_left (by rwa [length_pathComponents]), hc] at h
      exact not_lt.1 (h hi)
    · intro h hi
      have hlt : i < (pathComponents n b).length := by rwa [length_pathComponents]
      rw [List.getElem?_append_left hlt, List.getElem?_eq_getElem hlt, Option.getD_some]
      exact not_lt.2 (h _ (List.getElem?_eq_getElem hlt))
  exact and_comm.trans (and_congr (hcell 3 1) (hcell 4 maxDerivationIndex))

end Stored

section Wire

variable {b : Buffer} {out : Bip32Path}

theorem length_flatMap_beBytes (components : List ℕ) :
    (components.flatMap (beBytes 4)).length = 4 * components.length := by
  induction components with
  | nil => rfl
  | cons c components ih =>
    rw [List.flatMap_cons, List.length_append, length_beBytes, ih, List.length_cons]
    omega

theorem WirePath.length_bytes (p : WirePath) : p.bytes.length = 1 + 4 * p.components.length := by
  rw [WirePath.bytes, List.length_cons, length_flatMap_beBytes, Nat.add_comm]

theorem WirePath.length_bytes_le (p : WirePath) : p.bytes.length ≤ 21 := by
  have hle := p.length_le
  rw [maxBip32Path] at hle
  rw [p.length_bytes]
  omega

theorem WirePath.storedIn_store (p : WirePath) (hout : out.path.length = maxBip32Path) :
    p.StoredIn (p.store out) := by
  refine ⟨rfl, ?_⟩
  have hcomponents := pathComponents_flatMap p.lt []
  rw [List.append_nil] at hcomponents
  rw [WirePath.store, components_written hout p.length_le, hcomponents]

theorem WirePath.length_path_store (p : WirePath) (hout : out.path.length = maxBip32Path) :
    (p.store out).path.length = maxBip32Path := by
  have hle := p.length_le
  rw [WirePath.store, path_written hout hle, List.length_append, length_pathComponents,
    List.length_drop]
  omega

/-- The components are read whatever follows them. -/
theorem WirePath.written_append (p : WirePath) (out : Bip32Path) (more : Bytes) :
    out.written p.components.length (p.components.flatMap (beBytes 4) ++ more) = p.store out := by
  refine Bip32Path.written_congr ?_
  rw [List.take_append_of_le_length (length_flatMap_beBytes p.components).ge]

theorem WirePath.inRange_store (p : WirePath) (hout : out.path.length = maxBip32Path) :
    (p.store out).InRange := by
  have hcomponents := pathComponents_flatMap p.lt []
  rw [List.append_nil] at hcomponents
  rw [WirePath.store, inRange_written_iff hout p.length_le, hcomponents]
  exact ⟨p.change_le, p.index_le⟩

theorem WirePath.toNat_length (p : WirePath) :
    (UInt8.ofNat p.components.length).toNat = p.components.length :=
  UInt8.toNat_ofNat_of_lt' (p.length_le.trans_lt (by decide))

/-- A serialised path is accepted. -/
theorem Buffer.Wf.readBip32Path_wire (h : b.Wf) {p : WirePath} {more : Bytes}
    (hr : b.rest = p.bytes ++ more) (hout : out.path.length = maxBip32Path) :
    b.readBip32Path out = (true, p.store out, b.advance p.bytes.length) := by
  have hle := p.length_le
  have hbody := length_flatMap_beBytes p.components
  rw [WirePath.bytes, List.cons_append] at hr
  rw [h.readBip32Path_cons hr, p.toNat_length, p.written_append,
    if_neg (by rw [List.length_append]; omega), if_pos (p.inRange_store hout), p.length_bytes]

/-- An accepted path has been sent in serialised form. -/
theorem Buffer.Wf.exists_wirePath (h : b.Wf) {path : Bip32Path} {b' : Buffer}
    (hout : out.path.length = maxBip32Path) (hread : b.readBip32Path out = (true, path, b')) :
    ∃ p : WirePath, b.rest = p.bytes ++ b'.rest := by
  cases hr : b.rest with
  | nil =>
    rw [Buffer.readBip32Path, bip32PathRead, h.remaining, hr, if_pos (by simp)] at hread
    cases hread
  | cons x tail =>
    rw [h.readBip32Path_cons hr] at hread
    split_ifs at hread with hshort hrange
    · cases hread
    · obtain rfl := (Prod.mk.inj (Prod.mk.inj hread).2).2
      rw [not_or, not_lt, not_lt] at hshort
      have hchecks := (inRange_written_iff hout hshort.1).1 hrange
      let p : WirePath := ⟨pathComponents x.toNat tail,
        (length_pathComponents ..).trans_le hshort.1, fun _ => lt_of_mem_pathComponents,
        hchecks.1, hchecks.2⟩
      have hbytes : p.bytes = x :: tail.take (4 * x.toNat) := by
        have hnum : UInt8.ofNat (pathComponents x.toNat tail).length = x := by
          rw [length_pathComponents, UInt8.ofNat_toNat]
        exact congrArg₂ _ hnum (flatMap_pathComponents hshort.2)
      refine ⟨p, ?_⟩
      rw [hbytes, Buffer.rest_advance, hr, Nat.add_comm, List.drop_succ_cons, List.cons_append,
        List.take_append_drop]
    · cases hread

/-- The path that is read from a command is the path that was sent. -/
theorem components_of_readBip32Path {components : List ℕ} {out path : Bip32Path} {rest : Buffer}
    (hlt : ∀ c ∈ components, c < 2 ^ 32) (hlen : 1 + 4 * components.length ≤ 255)
    (hout : out.path.length = maxBip32Path)
    (hread : (Buffer.ofBytes (UInt8.ofNat components.length ::
      components.flatMap (beBytes 4))).readBip32Path out = (true, path, rest)) :
    path.components = components ∧ path.path.length = maxBip32Path := by
  have hcount : (UInt8.ofNat components.length).toNat = components.length :=
    UInt8.toNat_ofNat_of_lt' (by rw [UInt8.size]; omega)
  have hwf : (Buffer.ofBytes (UInt8.ofNat components.length ::
      components.flatMap (beBytes 4))).Wf := by
    refine Buffer.wf_ofBytes ?_
    rw [List.length_cons, length_flatMap_beBytes, sizeMod]
    omega
  rw [hwf.readBip32Path_cons (Buffer.rest_ofBytes _), hcount] at hread
  split_ifs at hread with hshort hrange
  · cases hread
  · obtain rfl : out.written components.length (components.flatMap (beBytes 4)) = path :=
      (Prod.mk.inj (Prod.mk.inj hread).2).1
    have hle : components.length ≤ maxBip32Path := by omega
    have hcomponents := pathComponents_flatMap hlt []
    rw [List.append_nil] at hcomponents
    refine ⟨(components_written hout hle).trans hcomponents, ?_⟩
    rw [path_written hout hle, List.length_append, length_pathComponents, List.length_drop, hout]
    omega
  · cases hread

end Wire

end HathorLedger
