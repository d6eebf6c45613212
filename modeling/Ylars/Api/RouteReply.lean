import Mathlib.Algebra.Ring.Nat
import Mathlib.Data.List.Nodup
import Ylars.Agent.AgentServer
import Ylars.Api.YlarsApi

/-!
# Which routes a client understands

The agent answers a request for the hosts of a module with one datagram, as long as `sendto`
takes.  `get_route` receives it into `_tmp_buf`, which has 1024,
and a datagram that does not fit has another size than its head tells.  So the client
understands the responses of at most 1016 bytes (`understands_route_iff`).
-/

namespace Ylars.Api

open Ylars.Lib Text
open Ylars.Proto Reactor Agent

/-- The agent's replies to one `get_route` after another. -/
def routeReplies (cfg : LoadBalanceConfig) (modid cmdid : UInt32) :
    List Clock → RouteLb → Outcome (List (Option (List UInt8)) × RouteLb)
  | [], r => .ok ([], r)
  | clock :: clocks, r => do
      let (effects, r) ← AgentServer.doRead cfg clock (routeRequest modid cmdid) r
      let (replies, r) ← routeReplies cfg modid cmdid clocks r
      return (effects.reply :: replies, r)

/-- The datagram with the hosts of a module. -/
def routeReply (res : GetRouteResponse) : List UInt8 :=
  (MessageId.getRouteResponse.message res.serialize).bytes

variable {cfg : LoadBalanceConfig} {r : RouteLb} {modid cmdid : UInt32}
  {hosts : List Proto.HostInfo}

/-- Every request is answered with the hosts, as far as `sendto` takes the datagram. -/
theorem routeReplies_eq (h : r.Serves modid cmdid hosts) (cfg : LoadBalanceConfig)
    (hsize : ((GetRouteResponse.serialize ⟨modid, cmdid, hosts⟩).length : Int) ≤ msgMaxLimit)
    (clocks : List Clock) :
    ∃ r', routeReplies cfg modid cmdid clocks r =
      .ok (clocks.map fun _ ↦ sendto (routeReply ⟨modid, cmdid, hosts⟩), r') := by
  induction clocks generalizing r with
  | nil => exact ⟨r, rfl⟩
  | cons clock clocks ih =>
      obtain ⟨reqs, r₁, hread, h₁⟩ := h.doRead cfg clock hsize
      obtain ⟨r₂, hreplies⟩ := ih h₁
      refine ⟨r₂, ?_⟩
      rw [routeReplies, routeRequest, hread, Outcome.ok_bind]
      simp only [hreplies, Outcome.ok_bind]
      rfl

theorem routeEntry_eq {host : Proto.HostInfo} (h : host.port.toNat < 2 ^ 16) :
    routeEntry host = (dottedQuad host.ip, host.port) := by
  rw [routeEntry, inetNtoa_htonl, toUInt32_toUInt16 h]

theorem sendto_routeReply {res : GetRouteResponse} (hfits : res.serialize.length + 8 ≤ tmpBufSize) :
    sendto (routeReply res) = some (routeReply res) :=
  UdpServer.sendto_bytes (Nat.le_trans hfits (by decide))

/-- A response that fits into the buffer is understood. -/
theorem getRoute_of_le (hports : ∀ host ∈ hosts, host.port.toNat < 2 ^ 16)
    (hfits : (GetRouteResponse.serialize ⟨modid, cmdid, hosts⟩).length + 8 ≤ tmpBufSize)
    (route : Route) :
    getRoute modid cmdid (some (routeReply ⟨modid, cmdid, hosts⟩)) route =
      route ++ hosts.map fun host ↦ (dottedQuad host.ip, host.port) := by
  have hentries : hosts.map routeEntry = hosts.map fun host ↦ (dottedQuad host.ip, host.port) :=
    List.map_congr_left fun host hmem ↦ routeEntry_eq (hports host hmem)
  simp only [getRoute, routeReply, checkMsg_bytes hfits, GetRouteResponse.parse_serialize]
  rw [if_neg (not_or.mpr ⟨not_not.mpr rfl, not_not.mpr rfl⟩), hentries]

/-- A response that does not fit into the buffer is dropped, if it has been sent. -/
theorem getRoute_of_lt
    (hlong : tmpBufSize < (GetRouteResponse.serialize ⟨modid, cmdid, hosts⟩).length + 8)
    (hsize : ((GetRouteResponse.serialize ⟨modid, cmdid, hosts⟩).length : Int) ≤ msgMaxLimit)
    (route : Route) :
    getRoute modid cmdid (sendto (routeReply ⟨modid, cmdid, hosts⟩)) route = route := by
  have hlt : (GetRouteResponse.serialize ⟨modid, cmdid, hosts⟩).length < 2 ^ 31 := by
    rw [msgMaxLimit, msgHeadLen] at hsize
    omega
  rw [sendto]
  split
  · simp only [getRoute, routeReply, checkMsg_bytes_of_lt hlong hlt]
  · rfl

/-- A first call of `get_route` with hosts is all that `reg_init` needs. -/
theorem regInit_of_ne_nil {io : Option (List UInt8)} (h : getRoute modid cmdid io [] ≠ [])
    (ios : List (Option (List UInt8))) :
    regInit modid cmdid (io :: ios) = some .retSucc := by
  have hne : (getRoute modid cmdid io []).isEmpty = false := by simpa using h
  simp only [regInit, regLoop, List.isEmpty_nil, hne, if_true, Bool.false_eq_true, if_false,
    Option.map_some]

theorem regInit_of_eq_nil {io₁ io₂ io₃ : Option (List UInt8)}
    (h₁ : getRoute modid cmdid io₁ [] = []) (h₂ : getRoute modid cmdid io₂ [] = [])
    (h₃ : getRoute modid cmdid io₃ [] = []) :
    regInit modid cmdid [io₁, io₂, io₃] = some .retNoexist := by
  simp only [regInit, regLoop, List.isEmpty_nil, h₁, h₂, h₃, if_true, Option.map_some]

/-- **A client understands the routes of at most 1016 bytes.**  The agent answers with every
route that fits into its own buffer, as far as `sendto` takes the datagram; the client gets the
hosts, and `reg_init` returns `RET_SUCC`, exactly when the route fits into `_tmp_buf` behind its
head. -/
theorem understands_route_iff (cfg : LoadBalanceConfig) (h : r.Serves modid cmdid hosts)
    (hports : ∀ host ∈ hosts, host.port.toNat < 2 ^ 16)
    (hsize : ((GetRouteResponse.serialize ⟨modid, cmdid, hosts⟩).length : Int) ≤ msgMaxLimit)
    (clock₁ clock₂ clock₃ : Clock) :
    ∃ reply r', reply = sendto (routeReply ⟨modid, cmdid, hosts⟩) ∧
      routeReplies cfg modid cmdid [clock₁, clock₂, clock₃] r =
        .ok ([reply, reply, reply], r') ∧
      (((∀ route, getRoute modid cmdid reply route =
            route ++ hosts.map fun host ↦ (dottedQuad host.ip, host.port)) ∧
          regInit modid cmdid [reply, reply, reply] = some .retSucc) ↔
        (GetRouteResponse.serialize ⟨modid, cmdid, hosts⟩).length ≤ 1016) := by
  obtain ⟨r', hreplies⟩ := routeReplies_eq h cfg hsize [clock₁, clock₂, clock₃]
  have hbuf : tmpBufSize = 1024 := rfl
  refine ⟨_, r', rfl, hreplies, ?_⟩
  constructor
  · rintro ⟨-, hreg⟩
    by_contra hlong
    have hnil := @getRoute_of_lt modid cmdid hosts (by omega) hsize []
    rw [regInit_of_eq_nil hnil hnil hnil] at hreg
    cases hreg
  · intro hle
    rw [sendto_routeReply (Nat.add_le_add_right hle 8)]
    have hget := @getRoute_of_le modid cmdid hosts hports (by omega)
    refine ⟨hget, regInit_of_ne_nil ?_ _⟩
    rw [hget, List.nil_append]
    exact fun hnil ↦ h.ne_nil (List.map_eq_nil_iff.mp hnil)

/-- A route of two hosts is understood. -/
theorem understands_route_two :
    ∃ (r : RouteLb) (hosts : List Proto.HostInfo) (d : List UInt8) (r' : RouteLb),
      hosts.Perm [⟨3232235953, 7777⟩, ⟨2130706433, 80⟩] ∧
      routeReplies .default 1 1 [fun _ ↦ 1, fun _ ↦ 2, fun _ ↦ 3] r =
        .ok ([some d, some d, some d], r') ∧
      getRoute 1 1 (some d) [] = [] ++ hosts.map (fun host ↦ (dottedQuad host.ip, host.port)) ∧
      regInit 1 1 [some d, some d, some d] = some .retSucc := by
  let two : List Proto.HostInfo := [⟨3232235953, 7777⟩, ⟨2130706433, 80⟩]
  have hnodup : two.Nodup := by decide
  obtain ⟨r, hosts, -, h, hperm⟩ := RouteLb.exists_serves .default (fun _ ↦ 0) 1 1
    (List.cons_ne_nil _ _) hnodup
  have hports : ∀ host ∈ hosts, host.port.toNat < 2 ^ 16 := fun host hmem ↦
    (show ∀ host ∈ two, host.port.toNat < 2 ^ 16 by decide) host (hperm.mem_iff.mp hmem)
  have hlen := GetRouteResponse.length_serialize_le ⟨1, 1, hosts⟩
  rw [hperm.length_eq] at hlen
  have hle : (GetRouteResponse.serialize ⟨1, 1, hosts⟩).length ≤ 1016 :=
    Nat.le_trans hlen (by decide)
  obtain ⟨reply, r', hreply, hreplies, hiff⟩ := understands_route_iff .default h hports
    (Int.ofNat_le.mpr (Nat.le_trans hle (by decide))) (fun _ ↦ 1) (fun _ ↦ 2) (fun _ ↦ 3)
  obtain ⟨hget, hreg⟩ := hiff.mpr hle
  rw [sendto_routeReply (Nat.add_le_add_right hle 8)] at hreply
  obtain rfl := hreply
  exact ⟨r, hosts, _, r', hperm, hreplies, hget [], hreg⟩

/-- A module with 128 hosts. -/
def manyHosts : List Proto.HostInfo :=
  (List.range 128).map fun i ↦ ⟨UInt32.ofNat (3232235520 + i), 7777⟩

/-- The agent sends all 93 hosts of a module, and the client gets none of them. -/
theorem manyHosts_not_understood :
    ∃ (r : RouteLb) (hosts : List Proto.HostInfo) (d : List UInt8) (r' : RouteLb),
      (RouteLb.new.create 1 1).2.updateHost .default (fun _ ↦ 0) ⟨1, 1, manyHosts⟩ = .ok r ∧
      r.Serves 1 1 hosts ∧ hosts.Perm manyHosts ∧
      (∀ host ∈ hosts, host.port.toNat < 2 ^ 16) ∧
      ((GetRouteResponse.serialize ⟨1, 1, hosts⟩).length : Int) ≤ msgMaxLimit ∧
      routeReplies .default 1 1 [fun _ ↦ 1, fun _ ↦ 2, fun _ ↦ 3] r =
        .ok ([some d, some d, some d], r') ∧
      getRoute 1 1 (some d) [] = [] ∧ regInit 1 1 [some d, some d, some d] = some .retNoexist := by
  have hnodup : manyHosts.Nodup := by
    apply List.Nodup.of_map fun host ↦ host.ip.toNat
    have hips : manyHosts.map (fun host ↦ host.ip.toNat) = List.range' 3232235520 128 := by
      decide +kernel
    rw [hips]
    exact List.nodup_range'
  obtain ⟨r, hosts, hu, h, hperm⟩ := RouteLb.exists_serves .default (fun _ ↦ 0) 1 1
    (show manyHosts ≠ [] by decide) hnodup
  have hlength : hosts.length = 128 := hperm.length_eq
  have hmany : ∀ host ∈ manyHosts, host.port.toNat < 2 ^ 16 ∧ 2 ^ 28 ≤ host.ip.toNat := by
    decide +kernel
  have hhosts : ∀ host ∈ hosts, host.port.toNat < 2 ^ 16 ∧ 2 ^ 28 ≤ host.ip.toNat :=
    fun host hmem ↦ hmany host (hperm.mem_iff.mp hmem)
  have hle := GetRouteResponse.length_serialize_le ⟨1, 1, hosts⟩
  have hge := @GetRouteResponse.le_length_serialize ⟨1, 1, hosts⟩ fun host hmem ↦
    (hhosts host hmem).2
  simp only [hlength] at hle hge
  have hsize : ((GetRouteResponse.serialize ⟨1, 1, hosts⟩).length : Int) ≤ msgMaxLimit := by
    rw [msgMaxLimit, msgHeadLen]
    omega
  have hbuf : tmpBufSize = 1024 := rfl
  have hsent : sendto (routeReply ⟨1, 1, hosts⟩) = some (routeReply ⟨1, 1, hosts⟩) :=
    UdpServer.sendto_bytes (by
      show (GetRouteResponse.serialize ⟨1, 1, hosts⟩).length + 8 ≤ datagramMax
      rw [datagramMax]
      omega)
  have hnil := @getRoute_of_lt 1 1 hosts (by omega) hsize []
  obtain ⟨r', hreplies⟩ := routeReplies_eq h .default hsize [fun _ ↦ 1, fun _ ↦ 2, fun _ ↦ 3]
  rw [hsent] at hnil hreplies
  exact ⟨r, hosts, _, r', hu, h, hperm, fun host hmem ↦ (hhosts host hmem).1, hsize, hreplies, hnil,
    regInit_of_eq_nil hnil hnil hnil⟩

end Ylars.Api
