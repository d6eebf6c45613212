import Ylars.Dns.DnsServer
import Ylars.Lib.Text

/-!
# The rows of `RouteData` as text

`mysql_fetch_row` gives the columns of a row as text, and `build_map` reads them with `atoi`.
`RouteDataRow` has the numbers of a row; for their decimal text `build_map` makes the same
key and the same host of it (`RouteDataRow.key_text`, `RouteDataRow.value_text`).
-/

namespace Ylars.Dns

open Std (ExtTreeSet)
open Ylars.Lib

/-- The columns that `build_map` reads. -/
structure TextRow where
  modid : String
  cmdid : String
  serverip : String
  serverport : String
deriving DecidableEq, Repr

namespace TextRow

/-- The key that `build_map` files the row under. -/
def key (row : TextRow) : UInt64 := packSigned (Text.atoi row.modid) (Text.atoi row.cmdid)

/-- The host of the row: an unsigned address and a signed port. -/
def value (row : TextRow) : UInt64 :=
  ((Text.atoi row.serverip).toUInt32.toUInt64 <<< 32) +
    (Text.atoi row.serverport).toInt64.toUInt64

end TextRow

/-- The decimal text of a row. -/
def RouteDataRow.text (row : RouteDataRow) : TextRow where
  modid := row.modid.toNat.repr
  cmdid := row.cmdid.toNat.repr
  serverip := row.serverip.toNat.repr
  serverport := row.serverport.toNat.repr

theorem RouteDataRow.key_text (row : RouteDataRow) : row.text.key = row.key := by
  simp only [TextRow.key, text, Text.atoi_repr, key, routeKey, atoi]

theorem RouteDataRow.value_text (row : RouteDataRow) : row.text.value = row.value := by
  simp only [TextRow.value, text, Text.atoi_repr, UInt32.toUInt32_toInt32, value, atoi]

/-- The loop of `build_map` over the rows as they are fetched. -/
def Router.tableOfText (rows : List TextRow) : RouterMap :=
  rows.foldl (fun m row ↦ MultiMap.insertAt row.key row.value m) ∅

theorem Router.tableOfText_text (rows : List RouteDataRow) :
    tableOfText (rows.map RouteDataRow.text) = tableOf rows := by
  rw [tableOfText, tableOf, List.foldl_map]
  simp only [RouteDataRow.key_text, RouteDataRow.value_text]

theorem Router.mem_lookup_tableOfText {rows : List TextRow} {k v : UInt64} :
    v ∈ MultiMap.lookup (tableOfText rows) k ↔ ∃ row ∈ rows, row.key = k ∧ row.value = v := by
  exact MultiMap.mem_lookup_insertAll TextRow.key TextRow.value rows

/-- A port without a sign bit is packed as it is. -/
theorem RouteDataRow.value_eq_pack {row : RouteDataRow} (h : row.serverport.toNat < 2 ^ 31) :
    row.value = pack row.serverip row.serverport := by
  apply UInt64.toNat_inj.mp
  have hip := row.serverip.toNat_lt
  have hport := toUInt64_signExtend row.serverport
  rw [if_pos h] at hport
  rw [value, atoi, pack_toNat, UInt64.toNat_add, hport]
  simp [Nat.shiftLeft_eq]
  omega

/-- A response has the hosts whose packed words it is made of. -/
theorem mem_routeResponse {modid cmdid ip port : UInt32} {hosts : ExtTreeSet UInt64} :
    ⟨ip, port⟩ ∈ (routeResponse modid cmdid hosts).host ↔ pack ip port ∈ hosts := by
  rw [routeResponse, List.mem_map]
  constructor
  · rintro ⟨word, hword, heq⟩
    obtain ⟨hip, hport⟩ := Proto.HostInfo.mk.inj heq
    rw [← hip, ← hport, pack_unpack]
    exact ExtTreeSet.mem_toList.mp hword
  · intro hword
    have hunpack := unpack_pack ip port
    obtain ⟨hip, hport⟩ := Prod.mk.inj hunpack
    exact ⟨pack ip port, ExtTreeSet.mem_toList.mpr hword, by rw [hip, hport]⟩

/-- A row of the served table is a host of the response of its module, which `get_req` and
`publish_change_task` make. -/
theorem DnsServer.mem_answer {s : DnsServer} {rows : List TextRow} {row : RouteDataRow}
    (hdata : s.publisher.router.data = Router.tableOfText rows) (hrow : row.text ∈ rows)
    (hport : row.serverport.toNat < 2 ^ 31) :
    ⟨row.serverip, row.serverport⟩ ∈ (s.answer row.modid row.cmdid).res.host := by
  rw [answer]
  refine mem_routeResponse.mpr ?_
  rw [Router.getHosts, hdata, ← RouteDataRow.value_eq_pack hport]
  exact Router.mem_lookup_tableOfText.mpr ⟨row.text, hrow, row.key_text, row.value_text⟩

end Ylars.Dns
