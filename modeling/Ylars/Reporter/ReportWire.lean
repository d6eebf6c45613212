import Ylars.Wire

/-!
# Status reports on the wire

The messages of `ylars.proto` that the agent sends to the reporter: a status report has an
entry for each host of its module, so its size grows with the module.
-/

namespace Ylars.Proto

open Ylars.Lib Protobuf

namespace HostCallResult

/-- The fields that are written. -/
def fields (m : HostCallResult) : List Field :=
  uint32Field 1 m.ip ++ (uint32Field 2 m.port ++ (uint32Field 3 m.succ ++
    (uint32Field 4 m.err ++ boolField 5 m.overload)))

/-- What a field does to a message that is read. -/
def merge (m : HostCallResult) (f : Field) : HostCallResult × Bool :=
  match f.num, f.value with
  | 1, .varint x => ({ m with ip := UInt32.ofNat x }, true)
  | 2, .varint x => ({ m with port := UInt32.ofNat x }, true)
  | 3, .varint x => ({ m with succ := UInt32.ofNat x }, true)
  | 4, .varint x => ({ m with err := UInt32.ofNat x }, true)
  | 5, .varint x => ({ m with overload := x != 0 }, true)
  | _, _ => (m, true)

/-- An entry that is read. -/
def parse (bs : List UInt8) : HostCallResult × Bool := Protobuf.parse merge ⟨0, 0, 0, 0, false⟩ bs

/-- The fields can be written. -/
theorem legal_fields (m : HostCallResult) : ∀ f ∈ m.fields, f.Legal := by
  simp only [fields, List.forall_mem_append]
  exact ⟨legal_uint32Field (by decide) (by decide) m.ip,
    legal_uint32Field (by decide) (by decide) m.port,
    legal_uint32Field (by decide) (by decide) m.succ,
    legal_uint32Field (by decide) (by decide) m.err,
    legal_boolField (by decide) (by decide) m.overload⟩

/-- Reading back an entry. -/
theorem parse_encode (m : HostCallResult) : parse (encode m.fields) = (m, true) := by
  refine Protobuf.parse_encode m.legal_fields ?_
  have hip : mergeAll merge ⟨0, 0, 0, 0, false⟩ (uint32Field 1 m.ip) =
      (⟨m.ip, 0, 0, 0, false⟩, true) :=
    mergeAll_uint32Field (HostCallResult.mk · 0 0 0 false) rfl fun _ ↦ rfl
  have hport : mergeAll merge ⟨m.ip, 0, 0, 0, false⟩ (uint32Field 2 m.port) =
      (⟨m.ip, m.port, 0, 0, false⟩, true) :=
    mergeAll_uint32Field (HostCallResult.mk m.ip · 0 0 false) rfl fun _ ↦ rfl
  have hsucc : mergeAll merge ⟨m.ip, m.port, 0, 0, false⟩ (uint32Field 3 m.succ) =
      (⟨m.ip, m.port, m.succ, 0, false⟩, true) :=
    mergeAll_uint32Field (HostCallResult.mk m.ip m.port · 0 false) rfl fun _ ↦ rfl
  have herr : mergeAll merge ⟨m.ip, m.port, m.succ, 0, false⟩ (uint32Field 4 m.err) =
      (⟨m.ip, m.port, m.succ, m.err, false⟩, true) :=
    mergeAll_uint32Field (HostCallResult.mk m.ip m.port m.succ · false) rfl fun _ ↦ rfl
  rw [fields, mergeAll_append hip, mergeAll_append hport, mergeAll_append hsucc,
    mergeAll_append herr]
  exact mergeAll_boolField (HostCallResult.mk m.ip m.port m.succ m.err ·) rfl fun _ ↦ rfl

/-- An entry has at most 26 bytes. -/
theorem length_encode_le (m : HostCallResult) : (encode m.fields).length ≤ 26 := by
  have hip := length_uint32Field_le 1 (by decide) m.ip
  have hport := length_uint32Field_le 2 (by decide) m.port
  have hsucc := length_uint32Field_le 3 (by decide) m.succ
  have herr := length_uint32Field_le 4 (by decide) m.err
  have hoverload := length_boolField_le 5 (by decide) m.overload
  simp only [fields, encode_append, List.length_append]
  omega

theorem length_messageField_le {num : ℕ} (h : num < 15) (m : HostCallResult) :
    (messageField num m.fields).encode.length ≤ 28 := by
  have hlen := m.length_encode_le
  have htag : (varint 5 (8 * num + 2)).length ≤ 1 := length_varint_le 5 (by omega) (by decide)
  have hsize : (varint 5 (encode m.fields).length).length ≤ 1 :=
    length_varint_le 5 (by omega) (by decide)
  simp only [messageField, Field.encode, Value.wireType, Value.payload, List.length_append]
  omega

end HostCallResult

namespace ReportStatusReq

/-- The fields that are written, in the order of their numbers. -/
def fields (m : ReportStatusReq) : List Field :=
  uint32Field 1 m.modid ++ (uint32Field 2 m.cmdid ++ (int32Field 3 m.caller ++
    ((m.result.map fun res ↦ messageField 4 res.fields) ++ uint32Field 5 m.ts)))

/-- `SerializeToString`. -/
def serialize (m : ReportStatusReq) : List UInt8 := encode m.fields

/-- What a field does to a message that is read: an entry is added before it is read. -/
def merge (m : ReportStatusReq) (f : Field) : ReportStatusReq × Bool :=
  match f.num, f.value with
  | 1, .varint x => ({ m with modid := UInt32.ofNat x }, true)
  | 2, .varint x => ({ m with cmdid := UInt32.ofNat x }, true)
  | 3, .varint x => ({ m with caller := (UInt32.ofNat x).toInt32 }, true)
  | 4, .bytes bs =>
      ({ m with result := m.result ++ [(HostCallResult.parse bs).1] }, (HostCallResult.parse bs).2)
  | 5, .varint x => ({ m with ts := UInt32.ofNat x }, true)
  | _, _ => (m, true)

/-- `ParseFromArray`: the message, and whether it is well formed. -/
def parse (bs : List UInt8) : ReportStatusReq × Bool := Protobuf.parse merge ⟨0, 0, 0, 0, []⟩ bs

/-- Merging entries appends them. -/
theorem mergeAll_results (results : List HostCallResult) (m : ReportStatusReq) :
    mergeAll merge m (results.map fun res ↦ messageField 4 res.fields) =
      ({ m with result := m.result ++ results }, true) := by
  induction results generalizing m with
  | nil => simp [mergeAll]
  | cons res results ih =>
      have hres : merge m (messageField 4 res.fields) =
          ({ m with result := m.result ++ [res] }, true) := by
        simp only [merge, messageField, HostCallResult.parse_encode]
      rw [List.map_cons, mergeAll, hres, if_pos rfl, ih, List.append_assoc]
      rfl

/-- The fields can be written. -/
theorem legal_fields (m : ReportStatusReq) : ∀ f ∈ m.fields, f.Legal := by
  simp only [fields, List.forall_mem_append]
  refine ⟨legal_uint32Field (by decide) (by decide) m.modid,
    legal_uint32Field (by decide) (by decide) m.cmdid,
    legal_int32Field (by decide) (by decide) m.caller, List.forall_mem_map.mpr fun res _ ↦ ?_,
    legal_uint32Field (by decide) (by decide) m.ts⟩
  exact legal_messageField (by decide) (by decide)
    (Nat.lt_of_le_of_lt res.length_encode_le (by decide))

/-- Reading back a report. -/
theorem parse_serialize (m : ReportStatusReq) : parse m.serialize = (m, true) := by
  refine Protobuf.parse_encode m.legal_fields ?_
  have hmodid : mergeAll merge ⟨0, 0, 0, 0, []⟩ (uint32Field 1 m.modid) =
      (⟨m.modid, 0, 0, 0, []⟩, true) :=
    mergeAll_uint32Field (ReportStatusReq.mk · 0 0 0 []) rfl fun _ ↦ rfl
  have hcmdid : mergeAll merge ⟨m.modid, 0, 0, 0, []⟩ (uint32Field 2 m.cmdid) =
      (⟨m.modid, m.cmdid, 0, 0, []⟩, true) :=
    mergeAll_uint32Field (ReportStatusReq.mk m.modid · 0 0 []) rfl fun _ ↦ rfl
  have hcaller : mergeAll merge ⟨m.modid, m.cmdid, 0, 0, []⟩ (int32Field 3 m.caller) =
      (⟨m.modid, m.cmdid, m.caller, 0, []⟩, true) :=
    mergeAll_int32Field (ReportStatusReq.mk m.modid m.cmdid · 0 []) rfl fun _ ↦ rfl
  have hresult : mergeAll merge ⟨m.modid, m.cmdid, m.caller, 0, []⟩
      (m.result.map fun res ↦ messageField 4 res.fields) =
      (⟨m.modid, m.cmdid, m.caller, 0, m.result⟩, true) := mergeAll_results m.result _
  rw [fields, mergeAll_append hmodid, mergeAll_append hcmdid, mergeAll_append hcaller,
    mergeAll_append hresult]
  exact mergeAll_uint32Field (ReportStatusReq.mk m.modid m.cmdid m.caller · m.result) rfl
    fun _ ↦ rfl

/-- A report has at most 29 bytes, and 28 for each of its entries. -/
theorem length_serialize_le (m : ReportStatusReq) :
    m.serialize.length ≤ 29 + 28 * m.result.length := by
  have hmodid := length_uint32Field_le 1 (by decide) m.modid
  have hcmdid := length_uint32Field_le 2 (by decide) m.cmdid
  have hcaller := length_int32Field_le 3 (by decide) m.caller
  have hts := length_uint32Field_le 5 (by decide) m.ts
  have hresult : (encode (m.result.map fun res ↦ messageField 4 res.fields)).length ≤
      28 * m.result.length := by
    rw [← List.length_map fun res : HostCallResult ↦ messageField 4 res.fields]
    refine length_encode_le_mul fun f hf ↦ ?_
    obtain ⟨res, -, rfl⟩ := List.mem_map.mp hf
    exact res.length_messageField_le (by decide)
  simp only [serialize, fields, encode_append, List.length_append]
  omega

end ReportStatusReq

end Ylars.Proto
