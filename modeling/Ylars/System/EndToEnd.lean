import Ylars.Api.RouteReply
import Ylars.Dns.RowText
import Ylars.System.WireDeployment

/-!
# From the database to a program

A row of `RouteData` goes through the table of the server, the response of a worker, the bytes
of a connection, the entry of the agent, a datagram, and the vector of `get_route`, and changes
its form on each way: two columns, one 64-bit word, two fields of a message, a key of the entry,
a text and a port.  At the end a program has the rows it would have read from the database
(`programs_have_rows`).
-/

namespace Ylars.System

open Std (ExtTreeMap)
open Ylars.Lib Ylars.Lib.Text Ylars.Proto Ylars.Reactor Ylars.Agent Ylars.Dns Ylars.Api

variable {cfg : LoadBalanceConfig} {nlMsgmax fd : Int} {n : ℕ} {d : WireDeployment}
  {w : WireSync} {es : List WireEvent} {modid cmdid : UInt32} {lb : LoadBalance}

/-- An entry with the hosts of some rows gives a host for each row, and gives each host
once. -/
theorem routeHosts_of_rows {rows : List RouteDataRow} (hwf : lb.WellFormed)
    (hports : ∀ row ∈ rows, row.serverport.toNat < 2 ^ 16)
    (h : ∀ k, k ∈ lb.hostMap ↔ ∃ row ∈ rows, row.value = k) :
    lb.routeHosts.Nodup ∧ lb.routeHosts.length ≤ rows.length ∧
      ∀ host, host ∈ lb.routeHosts ↔
        ∃ row ∈ rows, row.serverip = host.ip ∧ row.serverport = host.port := by
  have hkeys := hwf.map_routeHosts
  refine ⟨?_, ?_, fun host ↦ ?_⟩
  · apply List.Nodup.of_map fun host : Proto.HostInfo ↦ hostKey host.ip host.port
    rw [hkeys]
    exact ExtTreeMap.nodup_keys
  · rw [LoadBalance.routeHosts, List.length_map, ExtTreeMap.length_toList]
    exact Table.size_le_of_keys fun k hk ↦ (h k).mp hk
  · have hmem : host ∈ lb.routeHosts ↔ hostKey host.ip host.port ∈ lb.hostMap := by
      rw [← LoadBalance.exists_hostKey_eq, ← ExtTreeMap.mem_keys, ← hkeys, List.mem_map]
    rw [hmem, h]
    refine exists_congr fun row ↦ and_congr_right fun hrow ↦ ?_
    rw [RouteDataRow.value_eq_pack ((hports row hrow).trans (by decide))]
    constructor
    · exact pack_inj
    · rintro ⟨hip, hport⟩
      rw [hip, hport]
      rfl

/-- **A program has the rows of the database.**  Let the database be edited as the rules say, no
call on the connection of the agent fail and no end of it be closed, no module have more than `n`
hosts, a response with `n` hosts be within the limit of the client, and nobody ask for the
module 0.  After the last turn of the update thread and the work that was left, let a program ask
for the hosts of a module that the agent knows, with at most 71 rows and ports of 16 bits.  The
udp server of the module answers, and `get_route` makes of the answer a vector with the address
and the port of every row of the module, each once, and nothing else. -/
theorem programs_have_rows (hn : 12 + 14 * (n : Int) ≤ nlMsgmax) (hmax : nlMsgmax < 2 ^ 31)
    (h : d.AfterTurn cfg nlMsgmax fd n) (hsmall : FewInTables n d.wire.dns)
    (hr : (wireWorking cfg nlMsgmax fd).Run d.wire es w)
    (hrest : (wireWorking cfg nlMsgmax fd).AtRest w)
    (hget : (w.agents.agentRoutes (agentIndex modid cmdid)).routeMap[modKey modid cmdid]? =
      some lb)
    (hports : ∀ row ∈ rowsOf modid cmdid d.world.routes, row.serverport.toNat < 2 ^ 16)
    (hfew : (rowsOf modid cmdid d.world.routes).length ≤ 71) (clock : Clock) :
    ∃ reply pulls r', AgentServer.doRead cfg clock (routeRequest modid cmdid)
        (w.agents.agentRoutes (agentIndex modid cmdid)) = .ok (⟨some reply, pulls, none⟩, r') ∧
      (getRoute modid cmdid (some reply) []).Nodup ∧
      ∀ ip port, (ip, port) ∈ getRoute modid cmdid (some reply) [] ↔
        ∃ row ∈ rowsOf modid cmdid d.world.routes,
          dottedQuad row.serverip = ip ∧ row.serverport = port := by
  obtain ⟨hsound, -, hempty, hhosts⟩ := rows_of_rest_bytes hn hmax h hsmall hr hrest hget
  have hrows : ∀ k, k ∈ lb.hostMap ↔ ∃ row ∈ rowsOf modid cmdid d.world.routes, row.value = k := by
    intro k
    rw [hhosts]
    refine exists_congr fun row ↦ ?_
    rw [mem_rowsOf, and_assoc, and_assoc]
  obtain ⟨hnodup, hlen, hmem⟩ := routeHosts_of_rows hsound.wf hports hrows
  have hserves : (w.agents.agentRoutes (agentIndex modid cmdid)).Serves modid cmdid
      lb.routeHosts := ⟨lb, hget, hsound, hempty, rfl⟩
  have hsize := GetRouteResponse.length_serialize_le ⟨modid, cmdid, lb.routeHosts⟩
  simp only at hsize
  have hmsg : msgMaxLimit = 65527 := rfl
  have hbuf : tmpBufSize = 1024 := rfl
  obtain ⟨pulls, r', hread, -⟩ := hserves.doRead cfg clock (by omega)
  have hfits : (GetRouteResponse.serialize ⟨modid, cmdid, lb.routeHosts⟩).length + 8 ≤
      tmpBufSize := by omega
  have hsent := @sendto_routeReply ⟨modid, cmdid, lb.routeHosts⟩ hfits
  rw [show (MessageId.getRouteResponse.message
    (GetRouteResponse.serialize ⟨modid, cmdid, lb.routeHosts⟩)).bytes =
      routeReply ⟨modid, cmdid, lb.routeHosts⟩ from rfl, hsent] at hread
  have hhostPorts : ∀ host ∈ lb.routeHosts, host.port.toNat < 2 ^ 16 := by
    intro host hhost
    obtain ⟨row, hrow, -, hport⟩ := (hmem host).mp hhost
    rw [← hport]
    exact hports row hrow
  have hroute := @getRoute_of_le modid cmdid lb.routeHosts hhostPorts hfits []
  rw [List.nil_append] at hroute
  refine ⟨routeReply ⟨modid, cmdid, lb.routeHosts⟩, pulls, r', hread, ?_, fun ip port ↦ ?_⟩
  · rw [hroute]
    refine hnodup.map fun a b hab ↦ ?_
    obtain ⟨hip, hport⟩ := Prod.mk.inj hab
    cases a
    cases b
    exact congrArg₂ _ (dottedQuad_inj hip) hport
  · rw [hroute, List.mem_map]
    constructor
    · rintro ⟨host, hhost, he⟩
      obtain ⟨rfl, rfl⟩ := Prod.mk.inj he
      obtain ⟨row, hrow, hip, hport⟩ := (hmem host).mp hhost
      exact ⟨row, hrow, by rw [hip], hport⟩
    · rintro ⟨row, hrow, rfl, rfl⟩
      exact ⟨⟨row.serverip, row.serverport⟩, (hmem _).mpr ⟨row, hrow, rfl, rfl⟩, rfl⟩

/-- A chunk of bytes that arrives, with a pool that gives exactly what is requested. -/
def arrived (b : UInt8) (bs : List UInt8) : Chunk := ⟨exactPool, b :: bs, List.cons_ne_nil b bs⟩

/-- The work that is left after the turn: the worker finds nothing to push, the connection is
made, and the request of the agent is answered. -/
def leftOver : List WireEvent :=
  [.dns (.deal 0) exactPool exactPool, .dns (.task 0) exactPool exactPool,
    .dns (.proceed 0) exactPool exactPool, .link (.clientWrites 0 [.wrote 1]), .agent .recvTasks,
    .sendTask exactPool exactPool, .link (.clientWrites 0 [.wrote 100]),
    .link (.connReads (arrived 1 [0, 0, 0, 4, 0, 0, 0, 8, 1, 16, 1])),
    .request 0, .dns (.proceed 0) exactPool exactPool, .dns (.proceed 0) exactPool exactPool,
    .dns (.proceed 0) exactPool exactPool, .link (.connWrites [.wrote 100]),
    .link (.clientReads (arrived 2 [0, 0, 0, 15, 0, 0, 0, 8, 1, 16, 1, 26, 9, 8, 177, 131, 160,
      133, 12, 16, 225, 60])),
    .agent (.dnsResCb fun _ ↦ 100)]

/-- The agent and the server when it is done. -/
def rested : WireSync := leftOver.foldl (WireSync.next .default 121 5) turned.wire

theorem rested_run : (wireWorking .default 121 5).Run turned.wire leftOver rested := by
  refine LTS.Run.foldl (C := fun w e ↦ w.Works e ∧ (w.step .default 121 5 e).isSome = true) ?_ ?_
  · rintro w e ⟨hw, h⟩
    exact ⟨hw, w.next_step h⟩
  · have hone : (∀ r ∈ [WriteResult.wrote 1], r.Transient) ∧ 0 < transferred [.wrote 1] := by
      decide
    have hall : (∀ r ∈ [WriteResult.wrote 100], r.Transient) ∧ 0 < transferred [.wrote 100] := by
      decide
    exact ⟨⟨Nat.zero_lt_one, rfl⟩, ⟨trivial, rfl⟩, ⟨trivial, rfl⟩,
      ⟨⟨by decide, rfl, hone⟩, rfl⟩, ⟨⟨rfl, List.cons_ne_nil _ _⟩, rfl⟩, ⟨trivial, rfl⟩,
      ⟨⟨by decide, rfl, hall⟩, rfl⟩, ⟨trivial, rfl⟩, ⟨trivial, rfl⟩, ⟨trivial, rfl⟩,
      ⟨trivial, rfl⟩, ⟨trivial, rfl⟩, ⟨⟨by decide, hall⟩, rfl⟩, ⟨trivial, rfl⟩,
      ⟨List.cons_ne_nil _ _, rfl⟩, trivial⟩

set_option maxRecDepth 2000 in
theorem rested_atRest : (wireWorking .default 121 5).AtRest rested := by
  rintro e t ⟨hw, hst⟩
  change rested.step .default 121 5 e = some t at hst
  have hidle : ∀ i, rested.dns.isIdle i = true → i = 0 := fun i h ↦
    Nat.lt_one_iff.mp (DnsServer.of_isIdle h).2
  cases e with
  | agent a =>
      cases a with
      | recvTasks => exact hw.2 rfl
      | sendTask => exact hw rfl
      | dnsResCb clock => exact hw rfl
      | getHost | getRoute | reportHost | dnsAnswer | dnsPush => exact hw
  | sendTask p₁ p₂ => cases hst
  | request i => cases hst
  | dns e p₁ p₂ =>
      simp only [WireSync.step, Option.ite_none_right_eq_some, Option.bind_eq_some_iff] at hst
      obtain ⟨-, dns, hdns, -⟩ := hst
      cases e with
      | updater a => exact hw rfl
      | deal i =>
          simp only [DnsServer.step, Option.ite_none_right_eq_some] at hdns
          obtain rfl := hidle i hdns.1
          exact Nat.lt_irrefl 0 hw
      | task i =>
          simp only [DnsServer.step, Option.ite_none_right_eq_some] at hdns
          obtain rfl := hidle i hdns.1
          cases hdns.2
      | request | connect | close => exact hw
      | proceed i =>
          cases i with
          | zero => cases hdns
          | succ i => cases hdns
  | link op =>
      simp only [WireSync.step, Option.ite_none_right_eq_some] at hst
      obtain ⟨⟨-, hen⟩, -⟩ := hst
      cases op with
      | clientWrites soError res => exact hw.1 rfl
      | connWrites res => exact hw.1 rfl
      | connReads chunk => exact chunk.ne_nil (List.prefix_nil.mp hen.2.2)
      | clientReads chunk => exact chunk.ne_nil (List.prefix_nil.mp hen.2.2)
      | request | respond | clientHangs | connHangs => exact hw

theorem programs_have_rows_rested :
    ∃ reply pulls r', AgentServer.doRead .default (fun _ ↦ 0) (routeRequest 1 1)
        (rested.agents.agentRoutes (agentIndex 1 1)) = .ok (⟨some reply, pulls, none⟩, r') ∧
      (getRoute 1 1 (some reply) []).Nodup ∧
      ∀ ip port, (ip, port) ∈ getRoute 1 1 (some reply) [] ↔
        ∃ row ∈ rowsOf 1 1 turned.world.routes,
          dottedQuad row.serverip = ip ∧ row.serverport = port := by
  obtain ⟨lb, hget⟩ : ∃ lb,
      (rested.agents.agentRoutes (agentIndex 1 1)).routeMap[modKey 1 1]? = some lb :=
    Option.isSome_iff_exists.mp (by decide +kernel)
  exact programs_have_rows (by decide) (by decide) turned_afterTurn turned_few rested_run
    rested_atRest hget (by decide) (by decide) fun _ ↦ 0

end Ylars.System
