import Ylars.Lib.Protobuf
import Ylars.Proto
import Ylars.Reactor.Message

/-!
# Messages on the wire

What the generated code of `ylars.proto` writes and reads.  A field that is zero is not
written, and a field that is not there is zero; a field with another number or another wire
type than the message has is skipped.
-/

namespace Ylars.Proto

open Ylars.Lib Protobuf

/-- `MessageId`. -/
inductive MessageId where
  | unknow
  | getRouteRequest
  | getRouteResponse
  | reportStatusRequest
  | getHostRequest
  | getHostResponse
  | reportRequest
deriving DecidableEq, Repr

/-- The number of a message id. -/
def MessageId.code : MessageId → Int32
  | .unknow => 0
  | .getRouteRequest => 1
  | .getRouteResponse => 2
  | .reportStatusRequest => 3
  | .getHostRequest => 4
  | .getHostResponse => 5
  | .reportRequest => 6

/-- A message with an id. -/
def MessageId.message (id : MessageId) (data : List UInt8) : Reactor.Message := ⟨id.code, data⟩

namespace HostInfo

/-- The fields that are written. -/
def fields (m : HostInfo) : List Field := uint32Field 1 m.ip ++ uint32Field 2 m.port

/-- What a field does to a message that is read. -/
def merge (m : HostInfo) (f : Field) : HostInfo × Bool :=
  match f.num, f.value with
  | 1, .varint x => ({ m with ip := UInt32.ofNat x }, true)
  | 2, .varint x => ({ m with port := UInt32.ofNat x }, true)
  | _, _ => (m, true)

/-- A host that is read. -/
def parse (bs : List UInt8) : HostInfo × Bool := Protobuf.parse merge ⟨0, 0⟩ bs

theorem legal_fields (m : HostInfo) : ∀ f ∈ m.fields, f.Legal :=
  List.forall_mem_append.mpr
    ⟨legal_uint32Field (by decide) (by decide) m.ip,
      legal_uint32Field (by decide) (by decide) m.port⟩

/-- Reading back a host. -/
theorem parse_encode (m : HostInfo) : parse (encode m.fields) = (m, true) := by
  refine Protobuf.parse_encode m.legal_fields ?_
  have hip : mergeAll merge ⟨0, 0⟩ (uint32Field 1 m.ip) = (⟨m.ip, 0⟩, true) :=
    mergeAll_uint32Field (HostInfo.mk · 0) rfl fun _ ↦ rfl
  rw [fields, mergeAll_append hip]
  exact mergeAll_uint32Field (HostInfo.mk m.ip ·) rfl fun _ ↦ rfl

theorem length_encode_le (m : HostInfo) : (encode m.fields).length ≤ 12 := by
  have hip := length_uint32Field_le 1 (by decide) m.ip
  have hport := length_uint32Field_le 2 (by decide) m.port
  rw [fields, encode_append, List.length_append]
  omega

theorem legal_hostFields {num : ℕ} (hpos : 0 < num) (hnum : num < 2 ^ 29) (hosts : List HostInfo) :
    ∀ f ∈ hosts.map fun host ↦ messageField num host.fields, f.Legal :=
  List.forall_mem_map.mpr fun host _ ↦
    legal_messageField hpos hnum (Nat.lt_of_le_of_lt host.length_encode_le (by decide))

/-- A host has more than five bytes, when its address has more than 28 bits. -/
theorem lt_length_encode {m : HostInfo} (h : 2 ^ 28 ≤ m.ip.toNat) :
    5 < (encode m.fields).length := by
  have hip : ¬m.ip = 0 := by
    intro e
    rw [e] at h
    exact absurd h (by decide)
  have hval : 4 < (varint 10 m.ip.toNat).length := lt_length_varint h (by decide)
  have htag : 0 < (varint 5 (8 * 1 + (Value.varint m.ip.toNat).wireType)).length :=
    length_varint_pos 4 _
  rw [fields, encode_append, uint32Field, if_neg hip, encode_cons, Field.encode]
  simp only [Value.payload, List.length_append]
  omega

/-- As a field of a message a host has at most fourteen bytes. -/
theorem length_messageField_le {num : ℕ} (h : num < 15) (m : HostInfo) :
    (messageField num m.fields).encode.length ≤ 14 := by
  have hlen := m.length_encode_le
  have htag : (varint 5 (8 * num + 2)).length ≤ 1 := length_varint_le 5 (by omega) (by decide)
  have hsize : (varint 5 (encode m.fields).length).length ≤ 1 :=
    length_varint_le 5 (by omega) (by decide)
  simp only [messageField, Field.encode, Value.wireType, Value.payload, List.length_append]
  omega

/-- As a field a host has at least eight bytes, when its address has more than 28 bits. -/
theorem le_length_messageField (num : ℕ) {m : HostInfo} (h : 2 ^ 28 ≤ m.ip.toNat) :
    8 ≤ (messageField num m.fields).encode.length := by
  have hlen := lt_length_encode h
  have htag : 0 < (varint 5 (8 * num + 2)).length := length_varint_pos 4 _
  have hsize : 0 < (varint 5 (encode m.fields).length).length := length_varint_pos 4 _
  simp only [messageField, Field.encode, Value.wireType, Value.payload, List.length_append]
  omega

theorem length_hostFields_le {num : ℕ} (h : num < 15) (hosts : List HostInfo) :
    (encode (hosts.map fun host ↦ messageField num host.fields)).length ≤ 14 * hosts.length := by
  rw [← List.length_map fun host : HostInfo ↦ messageField num host.fields]
  refine length_encode_le_mul fun f hf ↦ ?_
  obtain ⟨host, -, rfl⟩ := List.mem_map.mp hf
  exact host.length_messageField_le h

theorem le_length_hostFields (num : ℕ) {hosts : List HostInfo}
    (h : ∀ host ∈ hosts, 2 ^ 28 ≤ host.ip.toNat) :
    8 * hosts.length ≤ (encode (hosts.map fun host ↦ messageField num host.fields)).length := by
  rw [← List.length_map fun host : HostInfo ↦ messageField num host.fields]
  refine mul_le_length_encode fun f hf ↦ ?_
  obtain ⟨host, hmem, rfl⟩ := List.mem_map.mp hf
  exact le_length_messageField num (h host hmem)

end HostInfo

namespace GetRouteRequest

/-- The fields that are written. -/
def fields (m : GetRouteRequest) : List Field := uint32Field 1 m.modid ++ uint32Field 2 m.cmdid

/-- `SerializeToArray`. -/
def serialize (m : GetRouteRequest) : List UInt8 := encode m.fields

/-- What a field does to a message that is read. -/
def merge (m : GetRouteRequest) (f : Field) : GetRouteRequest × Bool :=
  match f.num, f.value with
  | 1, .varint x => ({ m with modid := UInt32.ofNat x }, true)
  | 2, .varint x => ({ m with cmdid := UInt32.ofNat x }, true)
  | _, _ => (m, true)

/-- `ParseFromArray`: the message, and whether it is well formed. -/
def parse (bs : List UInt8) : GetRouteRequest × Bool := Protobuf.parse merge ⟨0, 0⟩ bs

theorem legal_fields (m : GetRouteRequest) : ∀ f ∈ m.fields, f.Legal :=
  List.forall_mem_append.mpr
    ⟨legal_uint32Field (by decide) (by decide) m.modid,
      legal_uint32Field (by decide) (by decide) m.cmdid⟩

/-- Reading back a request. -/
theorem parse_serialize (m : GetRouteRequest) : parse m.serialize = (m, true) := by
  refine Protobuf.parse_encode m.legal_fields ?_
  have hmodid : mergeAll merge ⟨0, 0⟩ (uint32Field 1 m.modid) = (⟨m.modid, 0⟩, true) :=
    mergeAll_uint32Field (GetRouteRequest.mk · 0) rfl fun _ ↦ rfl
  rw [fields, mergeAll_append hmodid]
  exact mergeAll_uint32Field (GetRouteRequest.mk m.modid ·) rfl fun _ ↦ rfl

theorem length_serialize_le (m : GetRouteRequest) : m.serialize.length ≤ 12 := by
  have hmodid := length_uint32Field_le 1 (by decide) m.modid
  have hcmdid := length_uint32Field_le 2 (by decide) m.cmdid
  rw [serialize, fields, encode_append, List.length_append]
  omega

end GetRouteRequest

namespace GetRouteResponse

/-- The fields that are written. -/
def fields (m : GetRouteResponse) : List Field :=
  uint32Field 1 m.modid ++ uint32Field 2 m.cmdid ++
    m.host.map fun host ↦ messageField 3 host.fields

/-- `SerializeToString`. -/
def serialize (m : GetRouteResponse) : List UInt8 := encode m.fields

/-- What a field does to a message that is read: a host is added before it is read. -/
def merge (m : GetRouteResponse) (f : Field) : GetRouteResponse × Bool :=
  match f.num, f.value with
  | 1, .varint x => ({ m with modid := UInt32.ofNat x }, true)
  | 2, .varint x => ({ m with cmdid := UInt32.ofNat x }, true)
  | 3, .bytes bs => ({ m with host := m.host ++ [(HostInfo.parse bs).1] }, (HostInfo.parse bs).2)
  | _, _ => (m, true)

/-- `ParseFromArray`: the message, and whether it is well formed. -/
def parse (bs : List UInt8) : GetRouteResponse × Bool := Protobuf.parse merge ⟨0, 0, []⟩ bs

theorem mergeAll_hosts (hosts : List HostInfo) (m : GetRouteResponse) :
    mergeAll merge m (hosts.map fun host ↦ messageField 3 host.fields) =
      ({ m with host := m.host ++ hosts }, true) := by
  induction hosts generalizing m with
  | nil => simp [mergeAll]
  | cons host hosts ih =>
      have hhost : merge m (messageField 3 host.fields) =
          ({ m with host := m.host ++ [host] }, true) := by
        simp only [merge, messageField, HostInfo.parse_encode]
      rw [List.map_cons, mergeAll, hhost, if_pos rfl, ih, List.append_assoc]
      rfl

theorem legal_fields (m : GetRouteResponse) : ∀ f ∈ m.fields, f.Legal := by
  simp only [fields, List.forall_mem_append]
  exact ⟨⟨legal_uint32Field (by decide) (by decide) m.modid,
    legal_uint32Field (by decide) (by decide) m.cmdid⟩,
    HostInfo.legal_hostFields (by decide) (by decide) m.host⟩

/-- Reading back a response. -/
theorem parse_serialize (m : GetRouteResponse) : parse m.serialize = (m, true) := by
  refine Protobuf.parse_encode m.legal_fields ?_
  have hmodid : mergeAll merge ⟨0, 0, []⟩ (uint32Field 1 m.modid) = (⟨m.modid, 0, []⟩, true) :=
    mergeAll_uint32Field (GetRouteResponse.mk · 0 []) rfl fun _ ↦ rfl
  have hcmdid : mergeAll merge ⟨m.modid, 0, []⟩ (uint32Field 2 m.cmdid) =
      (⟨m.modid, m.cmdid, []⟩, true) :=
    mergeAll_uint32Field (GetRouteResponse.mk m.modid · []) rfl fun _ ↦ rfl
  rw [fields, List.append_assoc, mergeAll_append hmodid, mergeAll_append hcmdid,
    mergeAll_hosts, List.nil_append]

theorem length_serialize_le (m : GetRouteResponse) :
    m.serialize.length ≤ 12 + 14 * m.host.length := by
  have hmodid := length_uint32Field_le 1 (by decide) m.modid
  have hcmdid := length_uint32Field_le 2 (by decide) m.cmdid
  have hhosts := @HostInfo.length_hostFields_le 3 (by decide) m.host
  rw [serialize, fields, encode_append, encode_append, List.length_append, List.length_append]
  omega

theorem le_length_serialize {m : GetRouteResponse} (h : ∀ host ∈ m.host, 2 ^ 28 ≤ host.ip.toNat) :
    8 * m.host.length ≤ m.serialize.length := by
  rw [serialize, fields, encode_append, List.length_append]
  exact Nat.le_add_left_of_le (HostInfo.le_length_hostFields 3 h)

end GetRouteResponse

namespace GetHostRequest

/-- The fields that are written. -/
def fields (m : GetHostRequest) : List Field :=
  uint32Field 1 m.seq ++ (uint32Field 2 m.modid ++ uint32Field 3 m.cmdid)

/-- `SerializeToArray`. -/
def serialize (m : GetHostRequest) : List UInt8 := encode m.fields

/-- What a field does to a message that is read. -/
def merge (m : GetHostRequest) (f : Field) : GetHostRequest × Bool :=
  match f.num, f.value with
  | 1, .varint x => ({ m with seq := UInt32.ofNat x }, true)
  | 2, .varint x => ({ m with modid := UInt32.ofNat x }, true)
  | 3, .varint x => ({ m with cmdid := UInt32.ofNat x }, true)
  | _, _ => (m, true)

/-- `ParseFromArray`: the message, and whether it is well formed. -/
def parse (bs : List UInt8) : GetHostRequest × Bool := Protobuf.parse merge ⟨0, 0, 0⟩ bs

theorem legal_fields (m : GetHostRequest) : ∀ f ∈ m.fields, f.Legal := by
  simp only [fields, List.forall_mem_append]
  exact ⟨legal_uint32Field (by decide) (by decide) m.seq,
    legal_uint32Field (by decide) (by decide) m.modid,
    legal_uint32Field (by decide) (by decide) m.cmdid⟩

/-- Reading back a request. -/
theorem parse_serialize (m : GetHostRequest) : parse m.serialize = (m, true) := by
  refine Protobuf.parse_encode m.legal_fields ?_
  have hseq : mergeAll merge ⟨0, 0, 0⟩ (uint32Field 1 m.seq) = (⟨m.seq, 0, 0⟩, true) :=
    mergeAll_uint32Field (GetHostRequest.mk · 0 0) rfl fun _ ↦ rfl
  have hmodid : mergeAll merge ⟨m.seq, 0, 0⟩ (uint32Field 2 m.modid) =
      (⟨m.seq, m.modid, 0⟩, true) :=
    mergeAll_uint32Field (GetHostRequest.mk m.seq · 0) rfl fun _ ↦ rfl
  rw [fields, mergeAll_append hseq, mergeAll_append hmodid]
  exact mergeAll_uint32Field (GetHostRequest.mk m.seq m.modid ·) rfl fun _ ↦ rfl

/-- A request has at most eighteen bytes. -/
theorem length_serialize_le (m : GetHostRequest) : m.serialize.length ≤ 18 := by
  have hseq := length_uint32Field_le 1 (by decide) m.seq
  have hmodid := length_uint32Field_le 2 (by decide) m.modid
  have hcmdid := length_uint32Field_le 3 (by decide) m.cmdid
  rw [serialize, fields, encode_append, encode_append, List.length_append, List.length_append]
  omega

end GetHostRequest

/-- The number of a result code. -/
def LastRetCode.code : LastRetCode → Int32
  | .retSucc => 0
  | .retOverload => 1
  | .retSystemError => 2
  | .retNoexist => 3

theorem LastRetCode.code_inj {a b : LastRetCode} (h : a.code = b.code) : a = b := by
  revert h
  cases a <;> cases b <;> decide

/-- A `GetHostResponse` as it is read, with any number for a result code. -/
structure HostReply where
  seq : UInt32
  modid : UInt32
  cmdid : UInt32
  retcode : Int32
  host : Option HostInfo
deriving DecidableEq, Repr

namespace HostReply

/-- The fields that are written. -/
def fields (m : HostReply) : List Field :=
  uint32Field 1 m.seq ++ (uint32Field 2 m.modid ++ (uint32Field 3 m.cmdid ++
    (int32Field 4 m.retcode ++ m.host.toList.map fun host ↦ messageField 5 host.fields)))

/-- What a field does to a message that is read: a host is merged into the one that is
there. -/
def merge (m : HostReply) (f : Field) : HostReply × Bool :=
  match f.num, f.value with
  | 1, .varint x => ({ m with seq := UInt32.ofNat x }, true)
  | 2, .varint x => ({ m with modid := UInt32.ofNat x }, true)
  | 3, .varint x => ({ m with cmdid := UInt32.ofNat x }, true)
  | 4, .varint x => ({ m with retcode := (UInt32.ofNat x).toInt32 }, true)
  | 5, .bytes bs =>
      let (host, ok) := Protobuf.parse HostInfo.merge (m.host.getD ⟨0, 0⟩) bs
      ({ m with host := some host }, ok)
  | _, _ => (m, true)

/-- `ParseFromArray`: the message, and whether it is well formed. -/
def parse (bs : List UInt8) : HostReply × Bool := Protobuf.parse merge ⟨0, 0, 0, 0, none⟩ bs

/-- The fields can be written. -/
theorem legal_fields (m : HostReply) : ∀ f ∈ m.fields, f.Legal := by
  simp only [fields, List.forall_mem_append]
  exact ⟨legal_uint32Field (by decide) (by decide) m.seq,
    legal_uint32Field (by decide) (by decide) m.modid,
    legal_uint32Field (by decide) (by decide) m.cmdid,
    legal_int32Field (by decide) (by decide) m.retcode,
    HostInfo.legal_hostFields (by decide) (by decide) m.host.toList⟩

/-- Reading back a reply. -/
theorem parse_encode (m : HostReply) : parse (encode m.fields) = (m, true) := by
  refine Protobuf.parse_encode m.legal_fields ?_
  have hseq : mergeAll merge ⟨0, 0, 0, 0, none⟩ (uint32Field 1 m.seq) =
      (⟨m.seq, 0, 0, 0, none⟩, true) :=
    mergeAll_uint32Field (HostReply.mk · 0 0 0 none) rfl fun _ ↦ rfl
  have hmodid : mergeAll merge ⟨m.seq, 0, 0, 0, none⟩ (uint32Field 2 m.modid) =
      (⟨m.seq, m.modid, 0, 0, none⟩, true) :=
    mergeAll_uint32Field (HostReply.mk m.seq · 0 0 none) rfl fun _ ↦ rfl
  have hcmdid : mergeAll merge ⟨m.seq, m.modid, 0, 0, none⟩ (uint32Field 3 m.cmdid) =
      (⟨m.seq, m.modid, m.cmdid, 0, none⟩, true) :=
    mergeAll_uint32Field (HostReply.mk m.seq m.modid · 0 none) rfl fun _ ↦ rfl
  have hretcode : mergeAll merge ⟨m.seq, m.modid, m.cmdid, 0, none⟩ (int32Field 4 m.retcode) =
      (⟨m.seq, m.modid, m.cmdid, m.retcode, none⟩, true) :=
    mergeAll_int32Field (HostReply.mk m.seq m.modid m.cmdid · none) rfl fun _ ↦ rfl
  rw [fields, mergeAll_append hseq, mergeAll_append hmodid, mergeAll_append hcmdid,
    mergeAll_append hretcode]
  obtain ⟨seq, modid, cmdid, retcode, host⟩ := m
  cases host with
  | none => rfl
  | some host =>
      have hhost : merge ⟨seq, modid, cmdid, retcode, none⟩ (messageField 5 host.fields) =
          (⟨seq, modid, cmdid, retcode, some host⟩, true) := by
        simp only [merge, messageField, Option.getD_none]
        rw [← HostInfo.parse, HostInfo.parse_encode]
      simp only [Option.toList_some, List.map_cons, List.map_nil, mergeAll, hhost, if_true]

end HostReply

namespace GetHostResponse

/-- What is written of a response. -/
def reply (m : GetHostResponse) : HostReply := ⟨m.seq, m.modid, m.cmdid, m.retcode.code, m.host⟩

/-- `SerializeToString`. -/
def serialize (m : GetHostResponse) : List UInt8 := encode m.reply.fields

theorem parse_serialize (m : GetHostResponse) : HostReply.parse m.serialize = (m.reply, true) :=
  m.reply.parse_encode

/-- A response has at most 43 bytes. -/
theorem length_serialize_le (m : GetHostResponse) : m.serialize.length ≤ 43 := by
  have hseq := length_uint32Field_le 1 (by decide) m.seq
  have hmodid := length_uint32Field_le 2 (by decide) m.modid
  have hcmdid := length_uint32Field_le 3 (by decide) m.cmdid
  have hretcode := length_int32Field_le 4 (by decide) m.retcode.code
  have hhost := @HostInfo.length_hostFields_le 5 (by decide) m.host.toList
  have hone : m.host.toList.length ≤ 1 := Option.length_toList_le
  simp only [serialize, reply, HostReply.fields, encode_append, List.length_append]
  omega

end GetHostResponse

namespace ReportRequest

/-- The fields that are written; the host has been set. -/
def fields (m : ReportRequest) : List Field :=
  uint32Field 1 m.modid ++ (uint32Field 2 m.cmdid ++
    ([messageField 3 m.host.fields] ++ boolField 4 m.issucc))

/-- `SerializeToArray`. -/
def serialize (m : ReportRequest) : List UInt8 := encode m.fields

/-- What a field does to a message that is read. -/
def merge (m : ReportRequest) (f : Field) : ReportRequest × Bool :=
  match f.num, f.value with
  | 1, .varint x => ({ m with modid := UInt32.ofNat x }, true)
  | 2, .varint x => ({ m with cmdid := UInt32.ofNat x }, true)
  | 3, .bytes bs =>
      let (host, ok) := Protobuf.parse HostInfo.merge m.host bs
      ({ m with host := host }, ok)
  | 4, .varint x => ({ m with issucc := x != 0 }, true)
  | _, _ => (m, true)

/-- `ParseFromArray`: the message, and whether it is well formed. -/
def parse (bs : List UInt8) : ReportRequest × Bool :=
  Protobuf.parse merge ⟨0, 0, ⟨0, 0⟩, false⟩ bs

/-- The fields can be written. -/
theorem legal_fields (m : ReportRequest) : ∀ f ∈ m.fields, f.Legal := by
  simp only [fields, List.forall_mem_append]
  exact ⟨legal_uint32Field (by decide) (by decide) m.modid,
    legal_uint32Field (by decide) (by decide) m.cmdid,
    HostInfo.legal_hostFields (by decide) (by decide) [m.host],
    legal_boolField (by decide) (by decide) m.issucc⟩

/-- Reading back a request. -/
theorem parse_serialize (m : ReportRequest) : parse m.serialize = (m, true) := by
  refine Protobuf.parse_encode m.legal_fields ?_
  have hmodid : mergeAll merge ⟨0, 0, ⟨0, 0⟩, false⟩ (uint32Field 1 m.modid) =
      (⟨m.modid, 0, ⟨0, 0⟩, false⟩, true) :=
    mergeAll_uint32Field (ReportRequest.mk · 0 ⟨0, 0⟩ false) rfl fun _ ↦ rfl
  have hcmdid : mergeAll merge ⟨m.modid, 0, ⟨0, 0⟩, false⟩ (uint32Field 2 m.cmdid) =
      (⟨m.modid, m.cmdid, ⟨0, 0⟩, false⟩, true) :=
    mergeAll_uint32Field (ReportRequest.mk m.modid · ⟨0, 0⟩ false) rfl fun _ ↦ rfl
  have hmerge : merge ⟨m.modid, m.cmdid, ⟨0, 0⟩, false⟩ (messageField 3 m.host.fields) =
      (⟨m.modid, m.cmdid, m.host, false⟩, true) := by
    simp only [merge, messageField]
    rw [← HostInfo.parse, HostInfo.parse_encode]
  have hhost : mergeAll merge ⟨m.modid, m.cmdid, ⟨0, 0⟩, false⟩ [messageField 3 m.host.fields] =
      (⟨m.modid, m.cmdid, m.host, false⟩, true) := by
    rw [mergeAll, hmerge, if_pos rfl]
    rfl
  rw [fields, mergeAll_append hmodid, mergeAll_append hcmdid, mergeAll_append hhost]
  exact mergeAll_boolField (ReportRequest.mk m.modid m.cmdid m.host ·) rfl fun _ ↦ rfl

/-- A request has at most 28 bytes. -/
theorem length_serialize_le (m : ReportRequest) : m.serialize.length ≤ 28 := by
  have hmodid := length_uint32Field_le 1 (by decide) m.modid
  have hcmdid := length_uint32Field_le 2 (by decide) m.cmdid
  have hhost := @HostInfo.length_messageField_le 3 (by decide) m.host
  have hissucc := length_boolField_le 4 (by decide) m.issucc
  simp only [serialize, fields, encode_append, encode_cons, encode_nil, List.length_append,
    List.append_nil]
  omega

end ReportRequest

end Ylars.Proto
