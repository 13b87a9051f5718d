import ZLog.Mapping.Layout
import Mathlib.Data.List.TakeWhile

/-!
# Views

A view is an object map with an optional sequencer configuration.  Views are stored as
FlatBuffers tables; the tables are modelled by their fields and the wire format is left to the
FlatBuffers library, so that a stored blob is a value of `Fbs.View`.

## Main results

- `View.decode_encode`: a stored view reads back as the view that was encoded, up to the
  truncation of its token to a C string.
- `View.codec_roundTrip`: a view with a proper sequencer configuration reads back unchanged, and
  the blob of a first view reads back as the view of the creator's options.
-/

namespace ZLog

/-! ## Tables -/

namespace Fbs

/-- The table of a stripe. -/
structure MultiStripe where
  baseId : Nat
  width : Nat
  slots : Nat
  instances : Nat
  minPosition : Nat
  maxPosition : Nat
  deriving DecidableEq

/-- `stripes` is a null pointer when the vector is absent. -/
structure ObjectMap where
  nextStripeId : Nat
  stripes : Option (List MultiStripe)
  minValidPosition : Nat
  deriving DecidableEq

/-- The table of a sequencer. -/
structure Sequencer where
  epoch : Nat
  token : String
  position : Nat
  deriving DecidableEq

/-- The table of a view. -/
structure View where
  objectMap : Option ObjectMap
  sequencer : Option Sequencer
  deriving DecidableEq

end Fbs

/-- `std::string(s.c_str())`: the characters before the first NUL. -/
def cStr (s : String) : String := String.ofList (s.toList.takeWhile (· ≠ '\x00'))

/-- Without a NUL a C string is the whole string. -/
theorem cStr_of_nulFree {s : String} (h : '\x00' ∉ s.toList) : cStr s = s := by
  unfold cStr
  rw [List.takeWhile_eq_self_iff.mpr, String.ofList_toList]
  intro x hx
  simpa using fun heq : x = '\x00' => h (heq ▸ hx)

/-! ## Sequencer configurations -/

/-- Who is the sequencer from which epoch on, and where it starts counting. -/
structure SequencerConfig where
  epoch : Nat
  token : String
  position : Nat
  deriving DecidableEq

namespace SequencerConfig

/-- The token goes through `c_str`. -/
def encode (c : SequencerConfig) : Fbs.Sequencer := ⟨c.epoch, cStr c.token, c.position⟩

/-- An epoch of 0 and an empty token fail the assertions of the constructor. -/
def decode (seq : Option Fbs.Sequencer) : Except Fault (Option SequencerConfig) :=
  match seq with
  | some seq =>
    if 0 < seq.epoch ∧ seq.token ≠ "" then .ok (some ⟨seq.epoch, seq.token, seq.position⟩)
    else .error .assertion
  | none => .ok none

end SequencerConfig

/-! ## Encoding object maps -/

namespace MultiStripe

def encode (s : MultiStripe) : Fbs.MultiStripe :=
  ⟨s.baseId, s.width, s.slots, s.instances, s.minPosition, s.maxPosition⟩

def decode (s : Fbs.MultiStripe) : Except Fault MultiStripe :=
  new s.baseId s.width s.slots s.minPosition s.instances s.maxPosition

/-- A stripe is read back as it was stored. -/
theorem decode_encode (s : MultiStripe) : decode s.encode = .ok s :=
  new_eq_ok.mpr ⟨rfl, rfl, rfl, rfl, rfl, rfl⟩

end MultiStripe

namespace ObjectMap

def encode (m : ObjectMap) : Fbs.ObjectMap :=
  ⟨m.nextStripeId, some (m.stripes.toList.map (fun s => s.2.encode)), m.minValidPosition⟩

/-- The stripes of a table, in a map by their first position. -/
def decodeStripes : List Fbs.MultiStripe → StripeMap → Except Fault StripeMap
  | [], stripes => .ok stripes
  | s :: rest, stripes =>
    match MultiStripe.decode s with
    | .error f => .error f
    | .ok stripe =>
      if (stripes.find? stripe.minPosition).isSome then .error .assertion
      else decodeStripes rest (stripes.emplace stripe.minPosition stripe)

def decode (m : Fbs.ObjectMap) : Except Fault ObjectMap :=
  match decodeStripes (m.stripes.getD []) .empty with
  | .error f => .error f
  | .ok stripes => new m.nextStripeId stripes m.minValidPosition

/-- The keys of a valid map are the first positions of its stripes. -/
theorem key_eq (m : ObjectMap) {x : Nat × MultiStripe} (hx : x ∈ m.stripes.toList) :
    x.1 = x.2.minPosition := by
  have hvalid := m.valid
  simp only [isValid, Bool.and_eq_true, List.all_eq_true, decide_eq_true_eq] at hvalid
  exact hvalid.1.1.1.2 x hx

/-- Decoding the stripes of a sorted list, behind the stripes decoded before. -/
theorem decodeStripes_encode {l done : List (Nat × MultiStripe)}
    (hsorted : (done ++ l).Pairwise (fun x y => x.1 < y.1))
    (hkey : ∀ x ∈ l, x.1 = x.2.minPosition) {acc : StripeMap} (hacc : acc.toList = done) :
    decodeStripes (l.map (fun s => s.2.encode)) acc = .ok ⟨done ++ l, hsorted⟩ := by
  induction l generalizing done acc with
  | nil =>
    apply congrArg Except.ok
    apply Lib.OrderedMap.ext
    simp [hacc]
  | cons x l ih =>
    obtain ⟨k, s⟩ := x
    have hk : k = s.minPosition := hkey (k, s) (List.mem_cons_self ..)
    -- the encoder walks the stripes in order, so every new key is past the ones before it
    have hlt : ∀ y ∈ acc.toList, y.1 < s.minPosition := by
      intro y hy
      rw [hacc] at hy
      rw [← hk]
      exact (List.pairwise_append.mp hsorted).2.2 y hy (k, s) (List.mem_cons_self ..)
    have hstep : (acc.emplace s.minPosition s).toList = done ++ [(k, s)] := by
      show Lib.OrderedMap.insertList s.minPosition s acc.toList = _
      rw [Lib.OrderedMap.insertList_of_lt hlt, hacc, hk]
    have hsorted' : ((done ++ [(k, s)]) ++ l).Pairwise (fun x y => x.1 < y.1) := by
      simpa using hsorted
    have hrest := ih hsorted' (fun y hy => hkey y (List.mem_cons_of_mem _ hy)) hstep
    simp only [List.map_cons, decodeStripes, MultiStripe.decode_encode,
      Lib.OrderedMap.find?_of_lt hlt, Option.isSome_none, Bool.false_eq_true, if_false, hrest]
    apply congrArg Except.ok
    apply Lib.OrderedMap.ext
    simp

/-- Every object map reads back unchanged. -/
theorem decode_encode (m : ObjectMap) : decode m.encode = .ok m := by
  have hsorted : (([] : List (Nat × MultiStripe)) ++ m.stripes.toList).Pairwise
      (fun x y => x.1 < y.1) := m.stripes.sorted
  have hstripes : decodeStripes (m.stripes.toList.map (fun s => s.2.encode)) .empty =
      .ok m.stripes :=
    decodeStripes_encode hsorted (fun _ hx => m.key_eq hx) rfl
  unfold decode
  simp only [encode, Option.getD_some, hstripes]
  exact new_eq_ok.mpr ⟨rfl, rfl, rfl⟩

end ObjectMap

/-! ## Views -/

structure View where
  objectMap : ObjectMap
  seqConfig : Option SequencerConfig
  deriving DecidableEq

namespace View

/-- Decoding fails where a constructor would stop at an assertion. -/
def decode (v : Fbs.View) : Except Fault View :=
  match v.objectMap with
  | none => .error .assertion
  | some objectMap =>
    match ObjectMap.decode objectMap with
    | .error f => .error f
    | .ok m =>
      match SequencerConfig.decode v.sequencer with
      | .error f => .error f
      | .ok seq => .ok ⟨m, seq⟩

/-- A view without a configuration is stored without a sequencer table. -/
def encode (v : View) : Fbs.View :=
  ⟨some v.objectMap.encode, v.seqConfig.map SequencerConfig.encode⟩

/-- The blob of a new log's first view. -/
def createInitial (options : Options) : Except Fault Fbs.View :=
  if options.createInitialViewStripes then
    let width := options.stripeWidth
    let slots := options.stripeSlots
    -- `stripe_width * stripe_slots - 1` in `uint32_t`
    let maxPosition := (mulUInt32 width slots + 2 ^ 32 - 1) % 2 ^ 32
    match MultiStripe.new 0 width slots 0 1 maxPosition with
    | .error f => .error f
    | .ok stripe =>
      match ObjectMap.new 1 (.singleton 0 stripe) 0 with
      | .error f => .error f
      | .ok m => .ok ⟨some m.encode, none⟩
  else .ok ⟨some ⟨0, none, 0⟩, none⟩

/-- The view with a stripe for the position, `none` when the map has one already. -/
def expandMapping (v : View) (position : Nat) (options : Options) : Except Fault (Option View) :=
  match v.objectMap.expandMapping position options with
  | .error f => .error f
  | .ok none => .ok none
  | .ok (some m) => .ok (some ⟨m, v.seqConfig⟩)

/-- The view with its minimum raised to the position, `none` when it is there already. -/
def advanceMinValidPosition (v : View) (position : Nat) : Option View :=
  match v.objectMap.advanceMinValidPosition position with
  | none => none
  | some m => some ⟨m, v.seqConfig⟩

/-- Another sequencer configuration, the same map. -/
def withSequencerConfig (v : View) (seqConfig : SequencerConfig) : View :=
  ⟨v.objectMap, some seqConfig⟩

/-! ## Round trip -/

/-- Cutting at the first NUL is done once. -/
theorem cStr_cStr (s : String) : cStr (cStr s) = cStr s := by
  unfold cStr
  rw [String.toList_ofList, List.takeWhile_idem]

/-- The view as it reads back from its blob. -/
def stored (v : View) : View :=
  ⟨v.objectMap, v.seqConfig.map (fun c => { c with token := cStr c.token })⟩

/-- What is stored stays as it is when it is stored again. -/
theorem stored_stored (v : View) : v.stored.stored = v.stored := by
  unfold stored
  cases v.seqConfig with
  | none => rfl
  | some c => simp [cStr_cStr]

/-- What the assertions of the decoder ask of a view. -/
structure Storable (v : View) : Prop where
  layout : ∃ L n, v.objectMap.HasLayout L n
  config : ∀ c, v.seqConfig = some c → 0 < c.epoch ∧ cStr c.token ≠ ""

/-- **Round trip** of a view through its blob. -/
theorem decode_encode {v : View}
    (h : ∀ c, v.seqConfig = some c → 0 < c.epoch ∧ cStr c.token ≠ "") :
    decode v.encode = .ok v.stored := by
  unfold decode encode stored
  simp only [ObjectMap.decode_encode]
  cases hc : v.seqConfig with
  | none => rfl
  | some c =>
    obtain ⟨he, hne⟩ := h c hc
    simp only [Option.map_some, SequencerConfig.decode, SequencerConfig.encode]
    rw [if_pos ⟨he, hne⟩]

/-- A token without NUL is stored in full. -/
theorem stored_of_nulFree {v : View} (h : ∀ c, v.seqConfig = some c → '\x00' ∉ c.token.toList) :
    v.stored = v := by
  obtain ⟨m, seq⟩ := v
  cases seq with
  | none => rfl
  | some c => simp [stored, cStr_of_nulFree (h c rfl)]

/-- What has been stored can be stored again. -/
theorem Storable.stored {v : View} (h : v.Storable) : v.stored.Storable := by
  refine ⟨h.layout, ?_⟩
  intro c hc
  cases hv : v.seqConfig with
  | none => simp [View.stored, hv] at hc
  | some c' =>
    have hcc : { c' with token := cStr c'.token } = c := by simpa [View.stored, hv] using hc
    rw [← hcc]
    exact ⟨(h.config c' hv).1, by rw [cStr_cStr]; exact (h.config c' hv).2⟩

/-- The first view: no stripes, or one stripe of the creator's options. -/
theorem createInitial_ok {options : Options} {blob : Fbs.View}
    (h : createInitial options = .ok blob) :
    ∃ v : View, decode blob = .ok v ∧ v.Storable ∧ v.seqConfig = none ∧
      v.objectMap.minValidPosition = 0 ∧
      ∃ L n, v.objectMap.HasLayout L n ∧ n ≤ 1 ∧
        (0 < n → L.width = options.stripeWidth ∧ L.slots = options.stripeSlots) := by
  unfold createInitial at h
  -- with a first stripe
  split at h
  · dsimp only at h
    split at h
    · cases h
    · next stripe hs =>
      split at h
      · cases h
      · next m hm =>
        cases h
        obtain ⟨hb, hw, hsl, hlo, hi, hmax⟩ := MultiStripe.new_eq_ok.mp hs
        obtain ⟨hnext, hst, hmv⟩ := ObjectMap.new_eq_ok.mp hm
        -- otherwise the constructor of the stripe would have rejected the wrapped maximum
        have hle : options.stripeWidth * options.stripeSlots ≤ 2 ^ 32 := by
          have hp := Nat.mul_pos stripe.width_pos stripe.slots_pos
          rw [hw, hsl] at hp
          have heq := stripe.max_eq
          rw [hmax, hlo, hi, hw, hsl, Nat.one_mul] at heq
          have hlt := Nat.mod_lt (mulUInt32 options.stripeWidth options.stripeSlots + 2 ^ 32 - 1)
            (show 0 < 2 ^ 32 by norm_num)
          omega
        have hlayout : m.HasLayout ⟨options.stripeWidth, options.stripeSlots,
            hw ▸ stripe.width_pos, hsl ▸ stripe.slots_pos, hle⟩ 1 :=
          ⟨hnext, fun h0 => absurd h0 (by omega),
            fun _ => ⟨stripe, by rw [hst]; rfl, hb, hw, hsl, hlo, hi⟩⟩
        refine ⟨⟨m, none⟩, ?_, ⟨⟨_, _, hlayout⟩, fun c hc => by cases hc⟩, rfl, hmv, _, 1, hlayout,
          le_refl _, fun _ => ⟨rfl, rfl⟩⟩
        simp [decode, ObjectMap.decode_encode, SequencerConfig.decode]
  · -- without a stripe: the map is empty
    cases h
    have hvalid : ObjectMap.isValid 0 (.empty : StripeMap) = true := by decide
    let L : Layout := ⟨1, 1, by omega, by omega, by norm_num⟩
    have hlayout : (⟨0, .empty, 0, hvalid⟩ : ObjectMap).HasLayout L 0 :=
      ⟨rfl, fun _ => rfl, fun h0 => absurd h0 (by omega)⟩
    refine ⟨⟨⟨0, .empty, 0, hvalid⟩, none⟩, ?_, ⟨⟨L, 0, hlayout⟩, fun c hc => by cases hc⟩, rfl, rfl,
      L, 0, hlayout, by omega, fun h0 => absurd h0 (by omega)⟩
    have hnew : ObjectMap.new 0 (.empty : StripeMap) 0 = .ok ⟨0, .empty, 0, hvalid⟩ :=
      ObjectMap.new_eq_ok.mpr ⟨rfl, rfl, rfl⟩
    simp [decode, ObjectMap.decode, ObjectMap.decodeStripes, hnew, SequencerConfig.decode]

/-- A stripe that covers the positions below `width * slots`. -/
def IsFirstStripe (s : MultiStripe) (width slots : Nat) : Prop :=
  s.baseId = 0 ∧ s.width = width ∧ s.slots = slots ∧ s.instances = 1 ∧ s.minPosition = 0 ∧
    s.maxPosition = width * slots - 1

/-- `stripe_width * stripe_slots - 1` does not wrap for a product of 32 bits. -/
theorem firstStripe_max {width slots : Nat} (hpos : 1 ≤ width * slots)
    (hlt : width * slots < 2 ^ 32) :
    (mulUInt32 width slots + 2 ^ 32 - 1) % 2 ^ 32 = width * slots - 1 := by
  have hmul : mulUInt32 width slots = width * slots := Nat.mod_eq_of_lt hlt
  rw [hmul, show width * slots + 2 ^ 32 - 1 = width * slots - 1 + 2 ^ 32 by omega,
    Nat.add_mod_right]
  exact Nat.mod_eq_of_lt (by omega)

/-- The assertions of the first stripe's constructor hold. -/
theorem firstStripe_ok {width slots : Nat} (hpos : 1 ≤ width * slots)
    (hlt : width * slots < 2 ^ 32) :
    ∃ s, MultiStripe.new 0 width slots 0 1 ((mulUInt32 width slots + 2 ^ 32 - 1) % 2 ^ 32) =
      .ok s ∧ IsFirstStripe s width slots := by
  rw [firstStripe_max hpos hlt]
  have hw : 0 < width := Nat.pos_of_mul_pos_right hpos
  have hs : 0 < slots := Nat.pos_of_mul_pos_left hpos
  have hmax : width * slots - 1 = 0 + 1 * width * slots - 1 := by simp
  exact ⟨⟨0, width, slots, 0, 1, _, hw, hs, Nat.one_pos, by simp, Nat.zero_le _, hmax⟩,
    MultiStripe.new_eq_ok.mpr ⟨rfl, rfl, rfl, rfl, rfl, rfl⟩, rfl, rfl, rfl, rfl, rfl, rfl⟩

/-- The blob of a first view reads back as the view of the creator's options. -/
theorem decode_createInitial {options : Options}
    (hpos : 1 ≤ options.stripeWidth * options.stripeSlots)
    (hlt : options.stripeWidth * options.stripeSlots < 2 ^ 32) :
    ∃ blob v, createInitial options = .ok blob ∧ decode blob = .ok v ∧ v.seqConfig = none ∧
      v.objectMap.minValidPosition = 0 ∧
      if options.createInitialViewStripes then
        v.objectMap.nextStripeId = 1 ∧ ∃ s, v.objectMap.stripes.toList = [(0, s)] ∧
          IsFirstStripe s options.stripeWidth options.stripeSlots
      else v.objectMap.nextStripeId = 0 ∧ v.objectMap.stripes.toList = [] := by
  unfold createInitial
  -- with a first stripe
  by_cases hinit : options.createInitialViewStripes = true
  · simp only [hinit, if_true]
    obtain ⟨s, hnew, hs⟩ := firstStripe_ok hpos hlt
    have ⟨hbase, _, _, hinst, hmin, _⟩ := hs
    have hvalid : ObjectMap.isValid 1 (.singleton 0 s) = true := by
      simp [ObjectMap.isValid, ObjectMap.adjacent, Lib.OrderedMap.last?, Lib.OrderedMap.first?,
        MultiStripe.maxStripeId, hbase, hinst, hmin]
    have hmap : ObjectMap.new 1 (.singleton 0 s) 0 = .ok ⟨1, .singleton 0 s, 0, hvalid⟩ :=
      ObjectMap.new_eq_ok.mpr ⟨rfl, rfl, rfl⟩
    let m : ObjectMap := ⟨1, .singleton 0 s, 0, hvalid⟩
    refine ⟨⟨some m.encode, none⟩, ⟨m, none⟩, ?_, ?_, rfl, rfl, rfl, s, rfl, hs⟩
    · rw [hnew]
      simp only [hmap, m]
    · simp [decode, ObjectMap.decode_encode, SequencerConfig.decode]
  · -- without one
    simp only [hinit]
    have hvalid : ObjectMap.isValid 0 (.empty : StripeMap) = true := by decide
    have hmap : ObjectMap.new 0 (.empty : StripeMap) 0 = .ok ⟨0, .empty, 0, hvalid⟩ :=
      ObjectMap.new_eq_ok.mpr ⟨rfl, rfl, rfl⟩
    refine ⟨_, ⟨⟨0, .empty, 0, hvalid⟩, none⟩, rfl, ?_, rfl, rfl, rfl, rfl⟩
    simp [decode, ObjectMap.decode, ObjectMap.decodeStripes, hmap, SequencerConfig.decode]

/-- **Codec round trip**: a view whose sequencer configuration is absent, or has a positive epoch
    and a non-empty token without NUL, reads back unchanged, in both indexes of its object map;
    and the blob of a first view reads back as the view of the creator's options. -/
theorem codec_roundTrip :
    (∀ v : View,
      (∀ c, v.seqConfig = some c → 0 < c.epoch ∧ c.token ≠ "" ∧ '\x00' ∉ c.token.toList) →
      ∃ v', decode v.encode = .ok v' ∧
        v'.objectMap.stripes = v.objectMap.stripes ∧
        ObjectMap.indexById v'.objectMap.stripes = ObjectMap.indexById v.objectMap.stripes ∧
        v'.objectMap.nextStripeId = v.objectMap.nextStripeId ∧
        v'.objectMap.minValidPosition = v.objectMap.minValidPosition ∧
        v'.seqConfig = v.seqConfig) ∧
    (∀ options : Options, 1 ≤ options.stripeWidth * options.stripeSlots →
      options.stripeWidth * options.stripeSlots < 2 ^ 32 →
      ∃ blob v, createInitial options = .ok blob ∧ decode blob = .ok v ∧ v.seqConfig = none ∧
        v.objectMap.minValidPosition = 0 ∧
        if options.createInitialViewStripes then
          v.objectMap.nextStripeId = 1 ∧ ∃ s, v.objectMap.stripes.toList = [(0, s)] ∧
            IsFirstStripe s options.stripeWidth options.stripeSlots
        else v.objectMap.nextStripeId = 0 ∧ v.objectMap.stripes.toList = []) := by
  refine ⟨?_, fun options hpos hlt => decode_createInitial hpos hlt⟩
  intro v hconfig
  -- a token without a NUL is stored whole
  have hstored : v.stored = v := stored_of_nulFree fun c hc => (hconfig c hc).2.2
  have hdecode : decode v.encode = .ok v.stored := by
    apply decode_encode
    intro c hc
    obtain ⟨hepoch, htoken, hnul⟩ := hconfig c hc
    rw [cStr_of_nulFree hnul]
    exact ⟨hepoch, htoken⟩
  exact ⟨v, hdecode.trans (congrArg Except.ok hstored), rfl, rfl, rfl, rfl, rfl⟩

/-- Two runs of stripes of different width, four stripes in all. -/
def sampleMap : ObjectMap where
  nextStripeId := 4
  stripes := ⟨[(0, ⟨0, 2, 3, 0, 2, 11, by decide, by decide, by decide, by decide, by decide,
      by decide⟩),
    (12, ⟨2, 1, 4, 12, 2, 19, by decide, by decide, by decide, by decide, by decide, by decide⟩)],
    by decide⟩
  minValidPosition := 5
  valid := by decide

/-- A view with two stripes and a configuration. -/
theorem codec_roundTrip_sample :
    (∃ v', decode (View.encode ⟨sampleMap, some ⟨4, "token", 7⟩⟩) = .ok v' ∧
      v'.objectMap.stripes = sampleMap.stripes ∧ v'.seqConfig = some ⟨4, "token", 7⟩) ∧
    (∃ blob v, createInitial {} = .ok blob ∧ decode blob = .ok v ∧
      ∃ s, v.objectMap.stripes.toList = [(0, s)] ∧ s.maxPosition = 49) := by
  constructor
  · obtain ⟨v', hd, hstripes, -, -, -, hseq⟩ := codec_roundTrip.1 ⟨sampleMap, some ⟨4, "token", 7⟩⟩
      (by
        intro c hc
        cases hc
        exact ⟨by decide, by decide, by decide⟩)
    exact ⟨v', hd, hstripes, hseq⟩
  · obtain ⟨blob, v, hblob, hd, -, -, -, s, hs, hfirst⟩ := codec_roundTrip.2 {} (by decide) (by decide)
    exact ⟨blob, v, hblob, hd, s, hs, hfirst.2.2.2.2.2⟩

end View

namespace ObjectMap

/-- A map of one stripe with 2 ^ 32 positions. -/
def largeMap : ObjectMap where
  nextStripeId := 1
  stripes := ⟨[(0, ⟨0, 65536, 65536, 0, 1, 4294967295, by decide, by decide, by decide, by decide,
    by decide, by decide⟩)], by decide⟩
  minValidPosition := 0
  valid := by decide

/-- One position on one object, then a stripe of two objects that starts at position 1. -/
def misalignedMap : ObjectMap where
  nextStripeId := 2
  stripes := ⟨[(0, ⟨0, 1, 1, 0, 1, 0, by decide, by decide, by decide, by decide, by decide,
      by decide⟩),
    (1, ⟨1, 2, 1, 1, 1, 2, by decide, by decide, by decide, by decide, by decide, by decide⟩)],
    by decide⟩
  minValidPosition := 0
  valid := by decide

end ObjectMap

end ZLog
