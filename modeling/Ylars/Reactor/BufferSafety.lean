import Ylars.Lib.Transition
import Ylars.Reactor.BufPool
import Ylars.Reactor.ReactorBuf

/-!
# When the buffers are safe

The operations of a connection on its two buffers, in any order, with the pool in
any state at each of them.  Appending and reading are safe as long as the pool
serves the request: a request that makes an attached buffer grow is dereferenced
when the pool is exhausted, and a request above the largest size gets a block that
is too small.  `claimed_iff_safe` makes this exact for every step of every run.
-/

namespace Ylars.Reactor

open Ylars.Lib ReactorBuf

/-- The answers of a pool in a given state. -/
def BufPool.alloc (p : BufPool) : Alloc := fun len ↦ (p.allocBuf len).1

/-- The two buffers of a connection. -/
structure Buffers where
  obuf : OutBuf
  ibuf : InBuf
  /-- Bytes were popped off the read buffer and it was not adjusted since. -/
  popped : Bool

/-- The operations on the buffers of a connection. -/
inductive BufOp where
  | sendData (pool : BufPool) (data : List UInt8)
  | write2fd (res : WriteResult)
  | clearOut
  | readfd (pool : BufPool) (fd : Socket)
  | pop (n : Int)
  | adjust
  | clearIn

namespace Buffers

/-- Two buffers without blocks. -/
def new : Buffers where
  obuf := none
  ibuf := none
  popped := false

/-- One operation: what it returns and the buffers after it. -/
def step (s : Buffers) : BufOp → Outcome (Int × Buffers)
  | .sendData pool data => do
      let (ret, obuf) ← OutBuf.sendData pool.alloc data s.obuf
      return (ret, { s with obuf := obuf })
  | .write2fd res => do
      let (ret, _, obuf) ← OutBuf.write2fd res s.obuf
      return (ret, { s with obuf := obuf })
  | .clearOut => return (0, { s with obuf := clear s.obuf })
  | .readfd pool fd => do
      let (ret, ibuf) ← InBuf.readfd pool.alloc fd s.ibuf
      return (ret, { s with ibuf := ibuf })
  | .pop n => return (0, { s with ibuf := s.ibuf.pop n, popped := true })
  | .adjust => do
      let ibuf ← InBuf.adjust s.ibuf
      return (0, { s with ibuf := ibuf, popped := false })
  | .clearIn => return (0, { s with ibuf := clear s.ibuf, popped := false })

/-- How a connection uses its buffers: it sends at least one byte, and it adjusts the
read buffer after popping and before reading again. -/
def Admissible (s : Buffers) : BufOp → Prop
  | .sendData pool data => pool.WellFormed ∧ data ≠ []
  | .readfd pool _ => pool.WellFormed ∧ s.popped = false
  | _ => True

/-- The runs of a connection on its buffers. -/
def runs : LTS Buffers BufOp where
  init s := s = new
  step s op s' := Admissible s op ∧ ∃ ret, s.step op = .ok (ret, s')

/-- The range in use of each attached block lies inside the block. -/
def InRange (s : Buffers) : Prop :=
  ∀ b, s.obuf = some b ∨ s.ibuf = some b →
    0 ≤ b.head ∧ 0 ≤ b.datalen ∧ b.head + b.datalen ≤ b.capacity

/-- What is claimed of one operation: it does not fault, the ranges in use stay inside
their blocks, and `send_data` that returns 0 has appended its bytes. -/
def Claimed (s : Buffers) (op : BufOp) : Prop :=
  ∃ ret s', s.step op = .ok (ret, s') ∧ s'.InRange ∧
    ∀ pool data, op = .sendData pool data → ret = 0 →
      s'.obuf.content = s.obuf.content ++ data

/-- The condition for one operation, on the state of the pool and the length of the
request alone. -/
def Safe (s : Buffers) : BufOp → Prop
  | .sendData pool data =>
      match s.obuf with
      | none => pool.Exhausted data.length ∨ data.length ≤ MemType.m16M.size
      | some b => data.length + b.datalen ≤ b.capacity ∨ pool.Serves (data.length + b.datalen)
  | .readfd pool fd => ∀ needRead, fd.needRead = some needRead →
      match s.ibuf with
      | none => pool.Exhausted needRead ∨ needRead ≤ MemType.m16M.size
      | some b => needRead + b.datalen ≤ b.capacity ∨
          (¬pool.Exhausted (needRead + b.datalen) ∧
            (needRead + b.datalen ≤ MemType.m16M.size ∨ needRead ≤ MemType.m4K.size))
  | _ => True

/-- The invariant of the runs. -/
structure Inv (s : Buffers) : Prop where
  obuf : s.obuf.Ready
  ibuf : s.ibuf.WellFormed
  ready : s.popped = false → s.ibuf.Ready

end Buffers

/-! ## The pool's answers -/

namespace BufPool

variable {p : BufPool} {len : Int}

/-- The answers of a well-formed pool are unused blocks. -/
theorem WellFormed.freshAlloc (h : p.WellFormed) : FreshAlloc p.alloc := by
  intro n b hb
  obtain ⟨⟨hwf, hhead, hlen, -⟩, hcap⟩ := h.allocBuf_some hb
  exact ⟨hwf, hhead, hlen, by have := (getMemLen n).size_pos; omega⟩

/-- There is a first block with room, or none, when the pool is exhausted or the request
is not above the largest size. -/
theorem WellFormed.room_none (h : p.WellFormed) :
    Room p.alloc len none ↔ p.Exhausted len ∨ len ≤ MemType.m16M.size := by
  rw [← allocBuf_eq_none]
  simp only [Room]
  constructor
  · intro hr
    cases hb : p.alloc len with
    | none => exact .inl hb
    | some b =>
        have := hr b hb
        rw [(h.allocBuf_some hb).2] at this
        exact .inr (le_getMemLen_iff.mp this)
  · rintro (hn | hle) b hb
    · rw [show p.alloc len = none from hn] at hb
      cases hb
    · rw [(h.allocBuf_some hb).2]
      exact le_getMemLen_iff.mpr hle

/-- The pool gives a block that is large enough when it serves the request. -/
theorem WellFormed.exists_alloc (h : p.WellFormed) :
    (∃ b, p.alloc len = some b ∧ len ≤ b.capacity) ↔ p.Serves len := by
  rw [Serves, ← allocBuf_eq_none, ← le_getMemLen_iff]
  constructor
  · rintro ⟨b, hb, hle⟩
    rw [(h.allocBuf_some hb).2] at hle
    refine ⟨fun hn ↦ ?_, hle⟩
    rw [show p.alloc len = none from hn] at hb
    cases hb
  · rintro ⟨hn, hle⟩
    obtain ⟨b, hb⟩ := Option.ne_none_iff_exists'.mp hn
    exact ⟨b, hb, by rw [(h.allocBuf_some hb).2]; exact hle⟩

end BufPool

/-! ## Appending without room -/

namespace OutBuf

variable {alloc : Alloc} {buf : OutBuf} {data : List UInt8}

/-- Without room `send_data` faults or returns 0 without having appended its bytes. -/
theorem sendData_of_not_room (h : buf.Ready) (ha : FreshAlloc alloc) (hd : data ≠ [])
    (hr : ¬buf.Room alloc data.length) :
    (∃ e, sendData alloc data buf = .error e) ∨
    ∃ buf', sendData alloc data buf = .ok (0, buf') ∧
      buf'.content ≠ buf.content ++ data := by
  rw [sendData, if_neg hd]
  rcases h.reserve_of_not_room ha hr with
    ⟨e, he⟩ | ⟨b', hres, hwf', hhead', hlt | ⟨hzero, b, rfl, hb, hlt⟩⟩
  · exact .inl ⟨e, by rw [he]; rfl⟩
  · left
    simp only [hres, Outcome.ok_bind]
    rw [Block.store_eq_none (by rw [hwf'.length_data]; omega)]
    exact ⟨_, rfl⟩
  · -- the old bytes are not copied
    simp only [hres, Outcome.ok_bind]
    by_cases hfit : (data.length : Int) ≤ b'.capacity
    · obtain ⟨data', hs, -, hcont⟩ := hwf'.append hhead'
        (show b'.datalen + data.length ≤ _ by omega)
      rw [hwf'.content_eq_nil.mpr hzero, List.nil_append] at hcont
      right
      simp only [hs, Outcome.inBounds_some, Outcome.ok_bind]
      refine ⟨_, rfl, fun he ↦ ?_⟩
      have hnil : content (some b) = [] := List.append_left_eq_self.mp (he.symm.trans hcont)
      have hdl := (ready_some.mp h).1.content_eq_nil.mp hnil
      have := hwf'.le_capacity
      omega
    · left
      rw [Block.store_eq_none (by rw [hwf'.length_data]; omega)]
      exact ⟨_, rfl⟩

end OutBuf

/-! ## Reading -/

namespace InBuf

variable {alloc : Alloc} {buf : InBuf} {len : Int}

/-- There is space for `len` more bytes in the block that `readfd` reads into.  When the
larger block does not even hold the bytes in use it stays empty, and has more space. -/
def Space (alloc : Alloc) (len : Int) : InBuf → Prop
  | none => ∀ b, alloc len = some b → len ≤ b.capacity
  | some b => len + b.datalen ≤ b.capacity ∨
      ∃ b', alloc (len + b.datalen) = some b' ∧
        (len + b.datalen ≤ b'.capacity ∨ (b'.capacity < b.datalen ∧ len ≤ b'.capacity))

theorem space_of_room (h : buf.Room alloc len) : Space alloc len buf := by
  cases buf with
  | none => exact h
  | some b => exact h.imp_right fun ⟨b', hb, hle⟩ ↦ ⟨b', hb, .inl hle⟩

/-- With space, `readfd` stays inside its block. -/
theorem readfd_of_space (h : buf.Ready) (ha : FreshAlloc alloc) (fd : Socket)
    (hs : ∀ k, fd.needRead = some k → Space alloc k buf) :
    ∃ ret buf', readfd alloc fd buf = .ok (ret, buf') ∧ buf'.Ready := by
  by_cases hr : ∀ k, fd.needRead = some k → buf.Room alloc k
  · obtain ⟨ret, bs, buf', hrd, hready, -⟩ := readfd_of_room h ha fd hr
    exact ⟨ret, buf', hrd, hready⟩
  · simp only [not_forall] at hr
    obtain ⟨k, hk, hroom⟩ := hr
    cases buf with
    | none => exact absurd (hs k hk) hroom
    | some b =>
        obtain ⟨-, hhead⟩ := ready_some.mp h
        simp only [Room, not_or, not_le, not_exists, not_and] at hroom
        obtain ⟨hc, hsmall⟩ := hroom
        obtain hfit | ⟨b', hb', hle | ⟨hlt, hle⟩⟩ := hs k hk
        · omega
        · exact absurd hle (not_le.mpr (hsmall b' hb'))
        · have hf := ha _ b' hb'
          have hk₀ := fd.needRead_nonneg k hk
          obtain ⟨ret, bs, buf', hrd, hready, -⟩ := readInto_spec fd.read
            hf.wellFormed hf.head_eq hk₀ (by rw [hf.datalen_eq]; omega) fd.read_le
            fun bs ↦ fd.read_pending k bs hk
          refine ⟨ret, buf', ?_, hready⟩
          simp only [readfd, hk, reserve, ne_eq, hhead, not_true_eq_false, if_false, if_pos hc,
            hb', IoBuf.copy_of_lt hlt, Outcome.ok_bind, pure_bind]
          exact hrd

/-- Reading more than there is space for leaves the block. -/
theorem readInto_error {b : IoBuf} {read : Int → ReadResult} (hwf : b.WellFormed)
    (hpos : 0 < len) (hlt : b.capacity < len + b.datalen) :
    ∃ e, readInto len read b = .error e := by
  have hload : Block.load b.data b.datalen len = none :=
    if_neg fun h ↦ absurd h.2.2 (by rw [hwf.length_data]; omega)
  refine ⟨.outOfBounds, ?_⟩
  simp only [readInto, if_neg hpos.ne', hload, Outcome.inBounds_none, Outcome.error_bind]

/-- Without space `readfd` faults. -/
theorem readfd_of_not_space (h : buf.Ready) (ha : FreshAlloc alloc) {fd : Socket}
    (hk : fd.needRead = some len) (hs : ¬Space alloc len buf) :
    ∃ e, readfd alloc fd buf = .error e := by
  have hk₀ := fd.needRead_nonneg len hk
  have hroom : ¬buf.Room alloc len := fun hr ↦ hs (space_of_room hr)
  simp only [readfd, hk]
  rcases h.reserve_of_not_room ha hroom with
    ⟨e, he⟩ | ⟨b', hres, hwf', hhead', hlt | ⟨hzero, b, rfl, hb, hlt⟩⟩
  · exact ⟨e, by rw [he]; rfl⟩
  · have hcap := hwf'.le_capacity
    simp only [hres, Outcome.ok_bind]
    exact readInto_error hwf' (by omega) hlt
  · -- the larger block stays empty, and has no space either
    have hcap := hwf'.le_capacity
    have hsmall : b'.capacity < len := not_le.mp fun hle ↦ hs (.inr ⟨b', hb, .inr ⟨hlt, hle⟩⟩)
    simp only [hres, Outcome.ok_bind]
    exact readInto_error hwf' (by omega) (by omega)

end InBuf

namespace Buffers

variable {s : Buffers}

/-! ## The condition, for a pool -/

/-- There is room to append exactly under the condition. -/
theorem safe_sendData {pool : BufPool} (hp : pool.WellFormed) {data : List UInt8} :
    s.Safe (.sendData pool data) ↔ s.obuf.Room pool.alloc data.length := by
  unfold Safe
  cases hb : s.obuf with
  | none => exact hp.room_none.symm
  | some b =>
      simp only [Room]
      rw [← hp.exists_alloc]

/-- There is space to read exactly under the condition. -/
theorem safe_readfd {pool : BufPool} (hp : pool.WellFormed) {fd : Socket} :
    s.Safe (.readfd pool fd) ↔
      ∀ k, fd.needRead = some k → InBuf.Space pool.alloc k s.ibuf := by
  unfold Safe
  refine forall_congr' fun k ↦ forall_congr' fun hk ↦ ?_
  have hk₀ := fd.needRead_nonneg k hk
  cases hb : s.ibuf with
  | none => exact hp.room_none.symm
  | some b =>
      simp only [InBuf.Space]
      refine or_congr_right ?_
      rw [← BufPool.allocBuf_eq_none]
      -- the answer, if there is one, has the size for the request
      have hsize : ∀ b', pool.alloc (k + b.datalen) = some b' →
          ((k + b.datalen ≤ MemType.m16M.size ∨ k ≤ MemType.m4K.size) ↔
            (k + b.datalen ≤ b'.capacity ∨ (b'.capacity < b.datalen ∧ k ≤ b'.capacity))) := by
        intro b' hb'
        rw [(hp.allocBuf_some hb').2]
        by_cases hle : k + b.datalen ≤ MemType.m16M.size
        · simp only [hle, le_getMemLen_iff.mpr hle, true_or]
        · rw [getMemLen_of_lt (not_le.mp hle)]
          simp only [MemType.size] at hle ⊢
          omega
      constructor
      · rintro ⟨hn, hor⟩
        obtain ⟨b', hb'⟩ := Option.ne_none_iff_exists'.mp hn
        exact ⟨b', hb', (hsize b' hb').mp hor⟩
      · rintro ⟨b', hb', hor⟩
        refine ⟨fun hn ↦ ?_, (hsize b' hb').mpr hor⟩
        rw [show pool.alloc (k + b.datalen) = none from hn] at hb'
        cases hb'

/-! ## One step -/

/-- The invariant bounds the ranges in use. -/
theorem Inv.inRange (h : s.Inv) : s.InRange := by
  rintro b (hb | hb)
  · have hwf := (h.obuf b hb).1
    exact ⟨hwf.head_nonneg, hwf.datalen_nonneg, hwf.le_capacity⟩
  · have hwf := h.ibuf b hb
    exact ⟨hwf.head_nonneg, hwf.datalen_nonneg, hwf.le_capacity⟩

/-- A safe operation succeeds, keeps the invariant and appends what it sends. -/
theorem Inv.step (h : s.Inv) {op : BufOp} (ha : s.Admissible op) (hs : s.Safe op) :
    ∃ ret s', s.step op = .ok (ret, s') ∧ s'.Inv ∧
      ∀ pool data, op = .sendData pool data → ret = 0 →
        s'.obuf.content = s.obuf.content ++ data := by
  cases op with
  | sendData pool data =>
      obtain ⟨hp, hd⟩ := ha
      rcases OutBuf.sendData_of_room h.obuf hp.freshAlloc hd ((safe_sendData hp).mp hs) with
        ⟨-, -, hsend⟩ | ⟨buf', hsend, hready, hcont⟩
      · refine ⟨-1, { s with obuf := none }, ?_, ⟨ready_none, h.ibuf, h.ready⟩, ?_⟩
        · simp only [Buffers.step, hsend, Outcome.ok_bind]
          rfl
        · intro _ _ _ hret
          cases hret
      · refine ⟨0, { s with obuf := buf' }, ?_, ⟨hready, h.ibuf, h.ready⟩, ?_⟩
        · simp only [Buffers.step, hsend, Outcome.ok_bind]
          rfl
        · intro _ _ he _
          cases he
          exact hcont
  | write2fd res =>
      obtain ⟨ret, taken, buf', hw, hready, -⟩ := OutBuf.write2fd_spec h.obuf res
      refine ⟨ret, { s with obuf := buf' }, ?_, ⟨hready, h.ibuf, h.ready⟩, fun _ _ he ↦ by cases he⟩
      simp only [Buffers.step, hw, Outcome.ok_bind]
      rfl
  | clearOut =>
      exact ⟨0, _, rfl, ⟨ready_none, h.ibuf, h.ready⟩, fun _ _ he ↦ by cases he⟩
  | readfd pool fd =>
      obtain ⟨hp, hpop⟩ := ha
      obtain ⟨ret, buf', hr, hready⟩ := InBuf.readfd_of_space (h.ready hpop) hp.freshAlloc fd
        ((safe_readfd hp).mp hs)
      refine ⟨ret, { s with ibuf := buf' }, ?_, ⟨h.obuf, hready.wellFormed, fun _ ↦ hready⟩,
        fun _ _ he ↦ by cases he⟩
      simp only [Buffers.step, hr, Outcome.ok_bind]
      rfl
  | pop n =>
      refine ⟨0, _, rfl, ⟨h.obuf, h.ibuf.pop n, fun hp ↦ ?_⟩, fun _ _ he ↦ by cases he⟩
      cases hp
  | adjust =>
      obtain ⟨buf', hadj, hready, -⟩ := InBuf.adjust_spec h.ibuf
      refine ⟨0, { s with ibuf := buf', popped := false }, ?_,
        ⟨h.obuf, hready.wellFormed, fun _ ↦ hready⟩, fun _ _ he ↦ by cases he⟩
      simp only [Buffers.step, hadj, Outcome.ok_bind]
      rfl
  | clearIn =>
      exact ⟨0, _, rfl, ⟨h.obuf, wellFormed_none, fun _ ↦ ready_none⟩, fun _ _ he ↦ by cases he⟩

/-- An operation that is not safe does not do what is claimed. -/
theorem Inv.not_claimed (h : s.Inv) {op : BufOp} (ha : s.Admissible op) (hs : ¬s.Safe op) :
    ¬s.Claimed op := by
  rintro ⟨ret, s', hst, -, happ⟩
  cases op with
  | sendData pool data =>
      obtain ⟨hp, hd⟩ := ha
      rw [safe_sendData hp] at hs
      simp only [Buffers.step] at hst
      rcases OutBuf.sendData_of_not_room h.obuf hp.freshAlloc hd hs with
        ⟨e, hsend⟩ | ⟨buf', hsend, hne⟩
      · rw [hsend] at hst
        cases hst
      · rw [hsend] at hst
        cases hst
        exact hne (happ pool data rfl rfl)
  | readfd pool fd =>
      obtain ⟨hp, hpop⟩ := ha
      rw [safe_readfd hp] at hs
      simp only [not_forall] at hs
      obtain ⟨k, hk, hspace⟩ := hs
      obtain ⟨e, hr⟩ := InBuf.readfd_of_not_space (h.ready hpop) hp.freshAlloc hk hspace
      simp only [Buffers.step, hr] at hst
      cases hst
  | _ => exact hs trivial

/-! ## Runs -/

/-- The invariant holds along every run of safe operations. -/
theorem inv_of_reachable (h : (runs.restrict Safe).Reachable s) : s.Inv := by
  refine LTS.Reachable.induction ?_ ?_ h
  · rintro s rfl
    exact ⟨ready_none, wellFormed_none, fun _ ↦ ready_none⟩
  · rintro s op t - hinv ⟨hsafe, hadm, ret, hst⟩
    obtain ⟨ret', t', hst', hinv', -⟩ := hinv.step hadm hsafe
    rw [hst] at hst'
    cases hst'
    exact hinv'

/-- **Buffers are safe exactly under the condition.**  In every state that a run of
operations meeting the condition leads to, the ranges in use lie inside their blocks,
and the next operation stays inside the blocks, dereferences no null pointer, fails no
assertion and appends what it sends, if and only if it meets the condition. -/
theorem claimed_iff_safe (h : (runs.restrict Safe).Reachable s) :
    s.InRange ∧ ∀ op, s.Admissible op → (s.Claimed op ↔ s.Safe op) := by
  have hinv := inv_of_reachable h
  refine ⟨hinv.inRange, fun op ha ↦ ⟨fun hc ↦ ?_, fun hs ↦ ?_⟩⟩
  · by_contra hs
    exact hinv.not_claimed ha hs hc
  · obtain ⟨ret, s', hst, hinv', happ⟩ := hinv.step ha hs
    exact ⟨ret, s', hst, hinv'.inRange, happ⟩

/-- A pool without free blocks that may make new ones. -/
def emptyPool : BufPool where
  pool _ := []
  currCap := 0

/-- A pool without free blocks that has made all it may. -/
def exhaustedPool : BufPool where
  pool _ := []
  currCap := maxBufPoolCap

/-- Two bytes are sent, and the socket takes the first one: the other one is in a block of 4096
bytes. -/
theorem one_left : ∃ s b, (runs.restrict Safe).Run new
    [.sendData emptyPool [7, 8], .write2fd (.wrote 1)] s ∧ s.obuf = some b ∧ b.datalen = 1 ∧
      b.capacity = 4096 ∧ b.content = [8] := by
  have hfresh : (IoBuf.new 4096).Fresh 0 := IoBuf.fresh_new (by decide) (by decide)
  have hnew : (IoBuf.new 4096).content = [] := hfresh.wellFormed.content_eq_nil.mpr rfl
  obtain ⟨data, hs, hwf, hcont⟩ : ∃ data, Block.store (IoBuf.new 4096).data 0 [(7 : UInt8), 8] =
      some data ∧ IoBuf.WellFormed ⟨4096, 2, data, 0⟩ ∧
        IoBuf.content ⟨4096, 2, data, 0⟩ = [7, 8] := by
    obtain ⟨data, hs, hwf, hcont⟩ := hfresh.wellFormed.append rfl
      (show (IoBuf.new 4096).datalen + ([(7 : UInt8), 8].length : Int) ≤ 4096 by decide)
    exact ⟨data, hs, hwf, hcont.trans (by rw [hnew]; rfl)⟩
  have hsend : new.step (.sendData emptyPool [7, 8]) = .ok
      (0, ⟨some ⟨4096, 2, data, 0⟩, none, false⟩) := by
    have halloc : BufPool.alloc emptyPool [(7 : UInt8), 8].length = some (IoBuf.new 4096) := rfl
    simp only [Buffers.step, OutBuf.sendData, new, reserve, halloc, Outcome.ok_bind,
      if_neg (List.cons_ne_nil (7 : UInt8) [8]), show (IoBuf.new 4096).datalen = 0 from rfl, hs]
    rfl
  have hle : (1 : Int) ≤ 2 := by decide
  obtain ⟨b, hadj, -, -, hcap, hlen, hb⟩ := (hwf.pop 1).adjust
  have hwrite : Buffers.step ⟨some ⟨4096, 2, data, 0⟩, none, false⟩
      (.write2fd (.wrote 1)) = .ok (1, ⟨some b, none, false⟩) := by
    have hoffered := OutBuf.offered (ready_some.mpr ⟨hwf, rfl⟩) rfl
    simp only [ReactorBuf.content, hcont] at hoffered
    have htake : [(7 : UInt8), 8].take 1 = [7] := rfl
    simp only [Buffers.step, OutBuf.write2fd, hoffered, Outcome.inBounds_some, Outcome.ok_bind,
      htake, if_neg (List.cons_ne_nil (7 : UInt8) [])]
    rw [show (IoBuf.pop ([(7 : UInt8)].length : Int) ⟨4096, 2, data, 0⟩).adjust = .ok b from hadj]
    rfl
  refine ⟨⟨some b, none, false⟩, b, .cons ⟨.inr (by decide), ⟨?_, List.cons_ne_nil _ _⟩, 0, hsend⟩
    (.cons ⟨trivial, trivial, 1, hwrite⟩ (.nil _)), rfl, ?_, ?_, ?_⟩
  · exact BufPool.wellFormed_empty 0
  · exact hlen.trans (IoBuf.datalen_pop (by decide) hle)
  · exact hcap.trans (IoBuf.capacity_pop 1)
  · rw [hb, hwf.content_pop (by decide) hle, hcont]
    rfl

theorem claimed_iff_safe_new :
    new.Claimed (.sendData .new [7]) ∧
      ∃ s, (runs.restrict Safe).Run new [.sendData emptyPool [7, 8], .write2fd (.wrote 1)] s ∧
        s.obuf.content = [8] ∧ s.Claimed (.sendData .new (List.replicate 4096 0)) ∧
        ¬s.Claimed (.sendData exhaustedPool (List.replicate 4096 0)) := by
  refine ⟨((claimed_iff_safe (.init rfl)).2 (.sendData .new [7])
    ⟨BufPool.wellFormed_new, by decide⟩).mpr (.inr (by decide)), ?_⟩
  obtain ⟨s, b, hrun, hb, hlen, hcap, hcont⟩ := one_left
  obtain ⟨-, hiff⟩ := claimed_iff_safe (LTS.Reachable.run (.init rfl) hrun)
  refine ⟨s, hrun, by rw [hb]; exact hcont,
    (hiff (.sendData _ _) ⟨BufPool.wellFormed_new, by decide⟩).mpr ?_, fun hclaimed ↦ ?_⟩
  · simp only [Safe, hb, hlen, List.length_replicate]
    exact .inr ⟨by decide, by decide⟩
  · have hsafe := (hiff (.sendData _ _) ⟨BufPool.wellFormed_empty _, by decide⟩).mp hclaimed
    simp only [Safe, hb, hlen, hcap, List.length_replicate] at hsafe
    rcases hsafe with hroom | ⟨hserves, -⟩
    · exact absurd hroom (by decide)
    · exact hserves (by decide)

/-- With one byte pending in a block of 4096 bytes, 4096 more cannot be sent while the
pool is exhausted. -/
theorem grow_exhausted {data : List UInt8} (hlen : data.length = 4096) :
    ∃ s, runs.Run new [.sendData { pool := fun _ ↦ [], currCap := 0 } [7]] s ∧
      s.Admissible (.sendData exhaustedPool data) ∧
      s.step (.sendData exhaustedPool data) = .error .nullDeref := by
  obtain ⟨data₁, hs⟩ := Block.exists_store (IoBuf.new 4096).data 0 [(7 : UInt8)]
    le_rfl (by rw [IoBuf.new, List.length_replicate]; decide)
  have hne : data ≠ [] := by
    rintro rfl
    cases hlen
  have halloc : BufPool.alloc { pool := fun _ ↦ [], currCap := 0 } [(7 : UInt8)].length =
      some (IoBuf.new 4096) := rfl
  refine ⟨_, .cons (t := ⟨some { IoBuf.new 4096 with datalen := 1, data := data₁ }, none, false⟩)
    ⟨⟨BufPool.wellFormed_empty 0, List.cons_ne_nil _ _⟩, 0, ?_⟩ (.nil _),
    ⟨BufPool.wellFormed_empty _, hne⟩, ?_⟩
  · simp only [Buffers.step, OutBuf.sendData, new, reserve, halloc, Outcome.ok_bind,
      if_neg (List.cons_ne_nil (7 : UInt8) [])]
    rw [show (IoBuf.new 4096).datalen = 0 from rfl, hs]
    rfl
  · have hgrow : (4096 : Int) < 4096 + 1 := by decide
    have hnone : BufPool.alloc exhaustedPool (4096 + 1) = none :=
      BufPool.allocBuf_eq_none.mpr (by decide)
    simp only [Buffers.step, OutBuf.sendData, if_neg hne, hlen]
    rw [show ((4096 : Nat) : Int) = 4096 from rfl, reserve_nullDeref rfl hgrow hnone]
    rfl

/-- A send that makes a buffer grow while the pool is exhausted dereferences the null
answer of the pool. -/
theorem grow_exhausted_not_claimed :
    ∃ s, runs.Run new [.sendData { pool := fun _ ↦ [], currCap := 0 } [7]] s ∧
      s.Admissible (.sendData exhaustedPool (List.replicate 4096 0)) ∧
      ¬s.Claimed (.sendData exhaustedPool (List.replicate 4096 0)) := by
  obtain ⟨s, hrun, hadm, hfault⟩ := grow_exhausted (List.length_replicate (n := 4096) (a := 0))
  refine ⟨s, hrun, hadm, ?_⟩
  rintro ⟨ret, s', hst, -⟩
  rw [hfault] at hst
  cases hst

end Buffers

end Ylars.Reactor
