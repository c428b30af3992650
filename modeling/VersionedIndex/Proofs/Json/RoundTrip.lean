import VersionedIndex.Config.Json
import VersionedIndex.Value.Json
import VersionedIndex.Proofs.Json.Documents

namespace VersionedIndex

namespace Json

/-- An integer is read from its own numeral, between any bounds that are within 64 bits. -/
theorem intWithin_ofInt {low high i : Int} (hlow : -((1 <<< 63 : Nat) : Int) ≤ low)
    (hhigh : high < UInt64.size) (hi : low ≤ i ∧ i ≤ high) :
    (ofInt i).intWithin? low high = some i := by
  rw [ofInt, intWithin?, Numeral.toInt_ofInt (by omega) (by omega)]
  simp [hi]

theorem idxOf_middle {before keys : List String} {key : String} (h : key ∉ before) :
    (before ++ key :: keys).idxOf? key = some before.length := by
  have hbefore : before.findIdx? (· == key) = none := List.idxOf?_eq_none_iff.mpr h
  rw [List.idxOf?, List.findIdx?_append, hbefore, Option.none_or, List.findIdx?_cons]
  simp

/-- The members of an object that are written under the known keys fill their slots. -/
theorem slots_of_keys (before : List String) {keys : List String} {values : List Json}
    (hnodup : (before ++ keys).Nodup) (hlength : values.length = keys.length) :
    slots? (before ++ keys) ((keys.map .ofText).zip values) =
      some (before.map (fun _ => none) ++ values.map some) := by
  -- By induction on the keys that are still to come, the last ones first.
  induction keys generalizing before values with
  | nil =>
    rw [List.eq_nil_of_length_eq_zero hlength]
    simp [slots?]
  | cons key keys ih =>
    obtain ⟨j, values, rfl⟩ := List.exists_cons_of_length_eq_add_one hlength
    have hrest := ih (before ++ [key]) (by simpa using hnodup) (Nat.succ.inj hlength)
    have hkey : key ∉ before := by
      intro hmem
      exact (List.nodup_append.mp hnodup).2.2 key hmem key List.mem_cons_self rfl
    rw [List.append_assoc, List.singleton_append] at hrest
    rw [List.map_cons, List.zip_cons_cons, slots?, Written.text_ofText, hrest]
    simp [idxOf_middle hkey, List.set_append]

/-- The settings that are written under the known keys are all present. -/
theorem settings_of_keys {keys : List String} {values : List Json} (hnodup : keys.Nodup)
    (hlength : values.length = keys.length) :
    (object ((keys.map .ofText).zip values)).settings? keys = some (values.map some) :=
  slots_of_keys [] hnodup hlength

theorem keys_proper (keys : List String) {values : List Json} (h : ∀ j ∈ values, j.Proper) :
    (object ((keys.map .ofText).zip values)).Proper := by
  refine object_proper fun m hm => ?_
  obtain ⟨hkey, hvalue⟩ := List.of_mem_zip hm
  obtain ⟨key, -, heq⟩ := List.mem_map.mp hkey
  exact ⟨heq ▸ Written.ofText_proper key, h m.2 hvalue⟩

end Json

namespace Value

theorem int64_ofInt (i : Int64) : int64? (.ofInt i.toInt) = some i := by
  rw [int64?, Json.intWithin_ofInt (by decide) (by decide) ⟨i.minValue_le_toInt, i.toInt_le⟩,
    Option.map_some, Int64.ofInt_toInt]

theorem int32_ofInt (i : Int32) : int32? (.ofInt i.toInt) = some i := by
  rw [int32?, Json.intWithin_ofInt (by decide) (by decide) ⟨i.minValue_le_toInt, i.toInt_le⟩,
    Option.map_some, Int32.ofInt_toInt]

theorem byte_ofInt (b : UInt8) : byte? (.ofInt b.toNat) = some b := by
  have hb := b.toNat_lt
  rw [byte?, Json.intWithin_ofInt (by decide) (by decide) (by omega), Option.map_some,
    Int.toNat_natCast, UInt8.ofNat_toNat]

theorem bytes_ofInts (bytes : List UInt8) :
    (bytes.map fun b => Json.ofInt b.toNat).mapM byte? = some bytes := by
  induction bytes with
  | nil => rfl
  | cons b bytes ih =>
    rw [List.map_cons, List.mapM_cons, byte_ofInt, ih]
    rfl

/-- An object with one member is read by the kind that its key names. -/
theorem ofJson_tagged (kind : String) (content : Json) :
    ofJson? (tagged kind content) = ofTagged? kind content := by
  rw [tagged, ofJson?, Json.Written.text_ofText]
  rfl

/-- A value that is no double is read from what it is written as. -/
theorem ofJson_toJson {v : Value} (hv : ∀ d, v ≠ .double d) : ofJson? v.toJson = some v := by
  cases v with
  | null => rw [toJson, Json.ofText, ofJson?, if_pos (Json.Written.text_ofText "Null")]
  | boolean b => exact ofJson_tagged "Boolean" (.bool b)
  | bigint i => exact (ofJson_tagged "BigInt" _).trans (congrArg (Option.map bigint) (int64_ofInt i))
  | double d => exact absurd rfl (hv d)
  | varchar s =>
    exact (ofJson_tagged "Varchar" _).trans
      (congrArg (Option.map varchar) (Json.Written.text_ofText s))
  | binary bytes =>
    exact (ofJson_tagged "Binary" _).trans (congrArg (Option.map binary) (bytes_ofInts bytes))
  | date d => exact (ofJson_tagged "Date" _).trans (congrArg (Option.map date) (int32_ofInt d))
  | timestamp t =>
    exact (ofJson_tagged "Timestamp" _).trans (congrArg (Option.map timestamp) (int64_ofInt t))

theorem tagged_proper (kind : String) {content : Json} (h : content.Proper) :
    (tagged kind content).Proper :=
  Json.object_proper (List.forall_mem_singleton.mpr ⟨Json.Written.ofText_proper kind, h⟩)

theorem toJson_proper {v : Value} (hv : ∀ d, v ≠ .double d) : v.toJson.Proper := by
  cases v with
  | null => exact Json.ofText_proper "Null"
  | boolean b => exact tagged_proper _ (Json.bool_proper b)
  | bigint i => exact tagged_proper _ (Json.ofInt_proper _)
  | double d => exact absurd rfl (hv d)
  | varchar s => exact tagged_proper _ (Json.ofText_proper s)
  | binary bytes =>
    refine tagged_proper _ (Json.array_proper fun j hj => ?_)
    obtain ⟨b, -, rfl⟩ := List.mem_map.mp hj
    exact Json.ofInt_proper _
  | date d => exact tagged_proper _ (Json.ofInt_proper _)
  | timestamp t => exact tagged_proper _ (Json.ofInt_proper _)

end Value

namespace IndexConfig

theorem ofJson_toJson (c : IndexConfig) : ofJson? c.toJson = some c := by
  rw [ofJson?, toJson, Json.settings_of_keys (by decide) rfl]
  rfl

theorem toJson_proper (c : IndexConfig) : c.toJson.Proper := by
  refine Json.keys_proper keys (List.forall_mem_cons.mpr ⟨?_, List.forall_mem_singleton.mpr ?_⟩)
  · exact Json.bool_proper c.verifyAfterWrite
  · exact Json.bool_proper c.reportPendingDuplicates

end IndexConfig

namespace StoreConfig

theorem capacity_ofInt (n : UInt64) : capacity? (.ofInt n.toNat) = some n := by
  have hn := n.toNat_lt
  rw [capacity?, Json.intWithin_ofInt (by decide) (by decide) (by rw [UInt64.size]; omega),
    Option.map_some, Int.toNat_natCast, UInt64.ofNat_toNat]

theorem ofJson_toJson (c : StoreConfig) : ofJson? c.toJson = some c := by
  rw [ofJson?, toJson, Json.settings_of_keys (by decide) rfl]
  change (capacity? (.ofInt c.initialNodeCapacity.toNat)).bind _ = _
  rw [capacity_ofInt]
  rfl

theorem toJson_proper (c : StoreConfig) : c.toJson.Proper :=
  Json.keys_proper keys (List.forall_mem_singleton.mpr (Json.ofInt_proper _))

end StoreConfig

/-- Every value that is no double, and every configuration, is decoded from its compact text. -/
theorem decode_compact_text :
    (∀ v : Value, (∀ d, v ≠ .double d) →
      (Json.parse? v.toJson.render).bind Value.ofJson? = some v) ∧
    (∀ c : StoreConfig, (Json.parse? c.toJson.render).bind StoreConfig.ofJson? = some c) ∧
    ∀ c : IndexConfig, (Json.parse? c.toJson.render).bind IndexConfig.ofJson? = some c := by
  refine ⟨fun v hv => ?_, fun c => ?_, fun c => ?_⟩
  · rw [Json.parse_render (v.toJson_proper hv), Option.bind_some, v.ofJson_toJson hv]
  · rw [Json.parse_render c.toJson_proper, Option.bind_some, c.ofJson_toJson]
  · rw [Json.parse_render c.toJson_proper, Option.bind_some, c.ofJson_toJson]

/-- A text with a quote, a backslash, two control characters and two characters beyond ASCII. -/
theorem escapes_decode :
    (Value.varchar "\"\\\n\x01é😀").toJson.render =
      "\x7b\"Varchar\":\"\\\"\\\\\\n\\u0001é😀\"\x7d" ∧
    (∀ d, Value.varchar "\"\\\n\x01é😀" ≠ .double d) ∧
    (Json.parse? (Value.varchar "\"\\\n\x01é😀").toJson.render).bind Value.ofJson? =
      some (.varchar "\"\\\n\x01é😀") :=
  ⟨by decide +kernel, nofun, decode_compact_text.1 _ nofun⟩

end VersionedIndex
