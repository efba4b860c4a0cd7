import HathorLedger.Run.Emissions
import HathorLedger.Run.Signing

/-!
# The paths of derivations

Paths come from the data of four commands. All of them are read by `bip32_path_read`, and a path
that it rejects goes no further, although it has been written to the context. The derivation of an
extended key also derives the parent, whose length is computed in one byte: for the empty path it
wraps around to 255.

## Main definitions

* `Bip32Path.ParentOf`: the path without its last component.
* `Bip32Path.Derivable`: the path is accepted, or the parent of an accepted path.
* `Input.asksEmptyXpub`: a `GET_XPUB` with the empty path.

## Main results

* `derivable_of_reachable`: without such a command all derivations use such paths.
-/

namespace HathorLedger

/-- The path without its last component. -/
structure Bip32Path.ParentOf (parent path : Bip32Path) : Prop where
  length : parent.length + 1 = path.length
  components : parent.components = path.components.dropLast

/-- The path respects all bounds, and it was accepted in full or is the parent of a path that
was. -/
structure Bip32Path.Derivable (path : Bip32Path) : Prop where
  allowed : path.Allowed
  accepted : path.Accepted ∨ ∃ child : Bip32Path, child.Accepted ∧ path.ParentOf child

/-- A `GET_XPUB` with the empty path. -/
def Input.asksEmptyXpub : Input → Bool
  | .apdu bytes =>
    match callOf bytes with
    | some (.getXpub data) => (requestedPath data).map Bip32Path.length == some 0
    | _ => false
  | _ => false

variable {sdk : Sdk} {w : World} {path : Bip32Path}

/-! ### Parents -/

theorem length_bip32PathReadLoop (input : Bytes) (inLen n i offset : ℕ) (path : List ℕ) :
    (bip32PathReadLoop input inLen n i offset path).2.length = path.length := by
  induction n generalizing i offset path with
  | zero => rfl
  | succ n ih =>
    rw [bip32PathReadLoop]
    split_ifs
    · rfl
    · rw [ih, List.length_set]

/-- The cells of the output array stay. -/
theorem length_path_bip32PathRead (input : Bytes) (inLen : ℕ) (out : Bip32Path) :
    (bip32PathRead input inLen out).2.path.length = out.path.length := by
  have hloop := length_bip32PathReadLoop input inLen (byteAt input 0) 0 1 out.path
  unfold bip32PathRead
  dsimp only
  split_ifs <;> first | rfl | exact hloop

theorem accepted_of_requestedPath {data : Bytes} (h : requestedPath data = some path) :
    path.Accepted ∧ path.path.length = maxBip32Path := by
  unfold requestedPath at h
  obtain ⟨accepted, path', rest, hread⟩ : ∃ accepted path' rest,
      (Buffer.ofBytes data).readBip32Path {} = (accepted, path', rest) := ⟨_, _, _, rfl⟩
  rw [hread] at h
  cases accepted with
  | false => cases h
  | true =>
    obtain rfl := Option.some.inj h
    refine ⟨⟨_, _, _, hread⟩, ?_⟩
    unfold Buffer.readBip32Path at hread
    have hlen := length_path_bip32PathRead ((Buffer.ofBytes data).ptr.drop (Buffer.ofBytes data).offset)
      (sizeSub (Buffer.ofBytes data).size (Buffer.ofBytes data).offset) {}
    generalize bip32PathRead _ _ _ = result at hread hlen
    obtain ⟨accepted, out⟩ := result
    cases accepted with
    | false => cases hread
    | true =>
      obtain rfl : out = path' := (Prod.mk.inj (Prod.mk.inj hread).2).1
      exact hlen

/-- The length of the parent does not wrap around. -/
theorem parentOf_parentPath (hallowed : path.Allowed) (hcells : path.path.length = maxBip32Path)
    (hne : path.length ≠ 0) : (parentPath path).ParentOf path := by
  have hle := hallowed.length_le
  have hlen : (parentPath path).length = path.length - 1 := by
    rw [maxBip32Path] at hle
    change u8 (path.length + 255) = _
    rw [u8]
    omega
  refine ⟨by omega, ?_⟩
  have htake : (path.path.take path.length).length = path.length := by
    rw [List.length_take]
    omega
  unfold Bip32Path.components
  rw [hlen, parentPath, List.take_append_of_le_length (by rw [List.length_take]; omega),
    List.take_take, min_self, List.dropLast_eq_take, htake, List.take_take,
    min_eq_left (Nat.sub_le _ _)]

theorem Bip32Path.ParentOf.allowed {parent : Bip32Path} (h : parent.ParentOf path)
    (hallowed : path.Allowed) : parent.Allowed := by
  have hle := hallowed.length_le
  have hlen := h.length
  have hcomponent : ∀ {i c : ℕ}, parent.components[i]? = some c → path.components[i]? = some c := by
    intro i c hc
    rw [h.components, List.dropLast_eq_take, List.getElem?_take] at hc
    split_ifs at hc
    exact hc
  exact ⟨by omega, fun c hc => hallowed.change_le c (hcomponent hc),
    fun c hc => hallowed.index_le c (hcomponent hc)⟩

/-! ### Change entries -/

/-- Before the decoder. -/
theorem Chunked.queueing {g g₁ : Globals} {i : Input} (hs : Sound sdk g) (hq : Chunked g i g₁) :
    ∃ h e, Queueing sdk h e g₁ := by
  obtain ⟨apdu, data, chunk, -, hcall, hq⟩ := hq
  exact ((hs.receive apdu).queued (length_of_callOf hcall) hq).2.2

/-- What the decoder has done with the record in front of it. -/
theorem Queueing.progress {h : Header} {e : Elements} {g : Globals} (hq : Queueing sdk h e g) :
    ∃ e' n t₁, Progress sdk g.tokenSymbols h e e' n g.ctx.txInfo t₁ ∧
      Halted t₁ (g.decode sdk).ctx.txInfo := by
  refine decodeElements_progress hq.session.held ?_
  have hle := hq.session.held.bufferLen_le
  rw [bufferCells] at hle
  rw [hq.bufferOutputLen]
  omega

/-- The decoder reaches an output only if one is announced. -/
theorem Queueing.outputsLen_ne_zero {h : Header} {e : Elements} {g : Globals}
    (hq : Queueing sdk h e g)
    (hne : (g.decode sdk).ctx.txInfo.currentOutput ≠ g.ctx.txInfo.currentOutput) :
    g.ctx.txInfo.outputsLen ≠ 0 := by
  obtain ⟨e', n, t₁, hprogress, hhalted⟩ := hq.progress
  have hcontext := hprogress.context.outputsLen
  have hheld := hprogress.held
  have hcurrent := hheld.currentOutput
  have hle := hheld.outputs_le
  have hmore := hprogress.outputs_prefix.length_le
  have hstart := hq.session.held.currentOutput
  generalize (g.decode sdk).ctx.txInfo = t' at hne hhalted
  cases hhalted with
  | unchanged => omega
  | counted hlt => omega

/-! ### Runs -/

theorem derivable_of_emission (hs : Sound sdk w.globals) {i : Input} (hxpub : i.asksEmptyXpub = false)
    {e : Event} {rest : List Event} (he : Emission sdk w.globals i e rest)
    (hpath : e = .derived path) : path.Derivable := by
  have haccepted : path.Accepted → path.Derivable := fun h => ⟨h.allowed, .inl h⟩
  cases he with
  | incidental h =>
    subst hpath
    cases h
  | pressed => cases hpath
  | address hi hcall hrequest =>
    obtain rfl := Event.derived.inj hpath
    exact haccepted (accepted_of_requestedPath hrequest).1
  | @xpub apdu data path' hi hcall hmem =>
    obtain rfl := Event.derived.inj hpath
    cases hrequest : requestedPath data with
    | none => simp [requestedPaths, hrequest] at hmem
    | some child =>
      obtain ⟨hchild, hcells⟩ := accepted_of_requestedPath hrequest
      rw [requestedPaths_eq hrequest, List.mem_cons, List.mem_singleton] at hmem
      rcases hmem with rfl | rfl
      · exact haccepted hchild
      · have hne : child.length ≠ 0 := fun hzero => by
          simp [hi, Input.asksEmptyXpub, hcall, hrequest, hzero] at hxpub
        have hparent := parentOf_parentPath hchild.allowed hcells hne
        exact ⟨hparent.allowed hchild.allowed, .inr ⟨child, hchild, hparent⟩⟩
  | signing hi hcall hread =>
    obtain rfl := Event.derived.inj hpath
    exact haccepted ⟨_, _, _, hread⟩
  | @decoding g₁ hq _ he =>
    subst hpath
    obtain ⟨h, e, hqueueing⟩ := hq.queueing hs
    rcases decodeEvents_cases he with hdecoded | ⟨hcurrent, hread | ⟨info, hinfo, hderived⟩⟩
    · cases hdecoded
    · cases hread
    · obtain rfl := Event.derived.inj hderived
      have hread := hqueueing.session.changesRead (hqueueing.outputsLen_ne_zero hcurrent)
      exact haccepted (hread.accepted info hinfo)
  | reviewing hq hready hsome hskipped he =>
    subst hpath
    cases he
  | approving hi hflow hskipped he =>
    subst hpath
    cases he

/-- In runs without a `GET_XPUB` for the empty path every derivation uses a path within the bounds,
one that was accepted or the parent of one. -/
theorem derivable_of_reachable
    (hw : Reachable Booted (step sdk) (fun _ i => i.asksEmptyXpub = false) w)
    (hpath : .derived path ∈ w.trace) : path.Derivable := by
  have hgrown := grown_of_reachable (P := fun e _ => ∀ path, e = .derived path → path.Derivable)
    (fun e _ he path hpath => by subst hpath; cases he)
    (fun w i hw hi e rest he path hpath => derivable_of_emission (sound_of_reachable hw) hi he hpath)
    hw
  refine hgrown.of_mem ?_ path rfl
  exact List.mem_filter.2 ⟨hpath, rfl⟩

/-- A path with one component. -/
def samplePath : Bip32Path where
  length := 1
  path := [0x8000002C, 0, 0, 0, 0]

/-- The extended key of a path with one component is asked for. -/
def sampleXpub : List Input := [.command Ins.getXpub 0 0 [1, 0x80, 0, 0, 0x2C]]

theorem derivable_sampleXpub : (parentPath samplePath).Derivable := by
  have hfollows : Follows (step Sdk.sample) (fun _ i => i.asksEmptyXpub = false) sampleBoot
      sampleXpub := by decide +kernel
  exact derivable_of_reachable ((Reachable.start booted_sampleBoot).follow hfollows)
    (by decide +kernel)

/-- The extended key of the empty path is asked for. -/
def sampleEmptyXpub : World := run Sdk.sample sampleBoot [.command Ins.getXpub 0 0 [0]]

/-- The parent of the empty path is derived with the length 255. -/
theorem not_derivable_sampleEmptyXpub :
    .derived (parentPath {}) ∈ sampleEmptyXpub.trace ∧ (parentPath {}).length = 255 ∧
      ¬(parentPath {}).Derivable :=
  ⟨by decide +kernel, rfl, fun h => absurd h.allowed.length_le (by decide)⟩

end HathorLedger
