import Mathlib.Logic.Function.Basic
import Ylars.Reactor.IoBuf

/-!
# The buffer pool: `buf_pool`

The pool hands out blocks of seven sizes.  A request gets the smallest size that
holds it, and a request above the largest size gets the *smallest* one: that is
`get_mem_len`, whose ladder of tests has no last `else`.  When no block of the
size is free a new one is made, as long as the pool stays below
`MAX_BUF_POOL_CAP`; otherwise the answer is null.
-/

namespace Ylars.Reactor

/-- The sizes of blocks, `_mem_type`. -/
inductive MemType where
  | m4K
  | m16K
  | m64K
  | m256K
  | m1M
  | m4M
  | m16M
deriving DecidableEq, Repr

namespace MemType

/-- The value of the enumerator: the size in bytes. -/
def size : MemType → Int
  | m4K => 4096
  | m16K => 16384
  | m64K => 65536
  | m256K => 262144
  | m1M => 1048576
  | m4M => 4194304
  | m16M => 16777216

theorem size_pos (type : MemType) : 0 < type.size := by cases type <;> decide

end MemType

/-- `get_mem_len`: the size of block for a request. -/
def getMemLen (len : Int) : MemType :=
  if len ≤ MemType.m4K.size then .m4K
  else if len ≤ MemType.m16K.size then .m16K
  else if len ≤ MemType.m64K.size then .m64K
  else if len ≤ MemType.m256K.size then .m256K
  else if len ≤ MemType.m1M.size then .m1M
  else if len ≤ MemType.m4M.size then .m4M
  else if len ≤ MemType.m16M.size then .m16M
  else .m4K

theorem le_getMemLen_iff {len : Int} :
    len ≤ (getMemLen len).size ↔ len ≤ MemType.m16M.size := by
  unfold getMemLen
  split_ifs <;> simp only [MemType.size] at * <;> omega

theorem getMemLen_of_lt {len : Int} (h : MemType.m16M.size < len) :
    (getMemLen len).size = 4096 := by
  unfold getMemLen
  split_ifs <;> simp only [MemType.size] at * <;> omega

/-- `MAX_BUF_POOL_CAP`, in KB. -/
def maxBufPoolCap : Nat := 4 * 1024 * 1024

/-- The pool: its free blocks, by capacity, and the memory made so far in KB. -/
structure BufPool where
  pool : Int → List IoBuf
  currCap : Nat

namespace BufPool

/-- `make_io_buf_pool`: make `num` blocks of a size, unless that is too much. -/
def makeIoBufPool (type : MemType) (num : Nat) (p : BufPool) : BufPool :=
  if maxBufPoolCap < type.size.toNat / 1024 * num + p.currCap then p
  else
    { pool := Function.update p.pool type.size (List.replicate num (IoBuf.new type.size))
      currCap := p.currCap + type.size.toNat / 1024 * num }

/-- The constructor. -/
def new : BufPool :=
  ({ pool := fun _ ↦ [], currCap := 0 } : BufPool)
    |>.makeIoBufPool .m4K 5000
    |>.makeIoBufPool .m16K 1000
    |>.makeIoBufPool .m64K 500
    |>.makeIoBufPool .m256K 200
    |>.makeIoBufPool .m1M 100
    |>.makeIoBufPool .m4M 50
    |>.makeIoBufPool .m16M 10

/-- `alloc_buf`: the block for a request, if there is one, and the new pool. -/
def allocBuf (len : Int) (p : BufPool) : Option IoBuf × BufPool :=
  let type := (getMemLen len).size
  match p.pool type with
  | b :: free => (some b, { p with pool := Function.update p.pool type free })
  | [] =>
      if maxBufPoolCap < p.currCap + type.toNat / 1024 then (none, p)
      else (some (IoBuf.new type), { p with currCap := p.currCap + type.toNat / 1024 })

/-- `release`: clear a block and put it back. -/
def release (buf : IoBuf) (p : BufPool) : Outcome BufPool := do
  let buf ← (buf.pop buf.datalen).adjust
  let buf := { buf with datalen := 0 }
  return { p with
    pool := Function.update p.pool buf.capacity (buf :: p.pool buf.capacity) }

/-- Free blocks are unused and have the capacity they are filed under. -/
structure WellFormed (p : BufPool) : Prop where
  free : ∀ c, ∀ b ∈ p.pool c, b.Fresh c ∧ b.capacity = c

/-- No block of the size for `len` is free and none can be made. -/
def Exhausted (p : BufPool) (len : Int) : Prop :=
  p.pool (getMemLen len).size = [] ∧
    maxBufPoolCap < p.currCap + (getMemLen len).size.toNat / 1024

instance (p : BufPool) (len : Int) : Decidable (p.Exhausted len) := by
  unfold Exhausted
  infer_instance

/-- The pool serves a request: there is a block, and it is large enough. -/
def Serves (p : BufPool) (len : Int) : Prop := ¬p.Exhausted len ∧ len ≤ MemType.m16M.size

variable {p : BufPool} {len : Int}

theorem wellFormed_empty (n : Nat) : WellFormed { pool := fun _ ↦ [], currCap := n } where
  free _ _ h := by cases h

theorem fresh_new (type : MemType) : (IoBuf.new type.size).Fresh type.size :=
  IoBuf.fresh_new type.size_pos.le le_rfl

/-- Making blocks keeps the pool well formed. -/
theorem WellFormed.makeIoBufPool (h : p.WellFormed) (type : MemType) (num : Nat) :
    (p.makeIoBufPool type num).WellFormed := by
  unfold BufPool.makeIoBufPool
  split
  · exact h
  · refine ⟨fun c b hb ↦ ?_⟩
    simp only at hb
    by_cases e : c = type.size
    · subst e
      rw [Function.update_self] at hb
      obtain rfl := List.eq_of_mem_replicate hb
      exact ⟨fresh_new type, rfl⟩
    · rw [Function.update_of_ne e] at hb
      exact h.free c b hb

theorem wellFormed_new : new.WellFormed :=
  (wellFormed_empty 0).makeIoBufPool _ _ |>.makeIoBufPool _ _ |>.makeIoBufPool _ _
    |>.makeIoBufPool _ _ |>.makeIoBufPool _ _ |>.makeIoBufPool _ _ |>.makeIoBufPool _ _

/-- There is no answer exactly when the pool is exhausted. -/
theorem allocBuf_eq_none : (p.allocBuf len).1 = none ↔ p.Exhausted len := by
  unfold allocBuf Exhausted
  cases hp : p.pool (getMemLen len).size with
  | nil =>
      by_cases hc : maxBufPoolCap < p.currCap + (getMemLen len).size.toNat / 1024 <;>
        simp [hp, hc]
  | cons b free => simp [hp]

/-- An answer is an unused block of the size for the request. -/
theorem WellFormed.allocBuf_some (h : p.WellFormed) {b : IoBuf}
    (hb : (p.allocBuf len).1 = some b) :
    b.Fresh (getMemLen len).size ∧ b.capacity = (getMemLen len).size := by
  unfold BufPool.allocBuf at hb
  cases hp : p.pool (getMemLen len).size with
  | nil =>
      simp only [hp] at hb
      split at hb
      · cases hb
      · obtain rfl := Option.some.inj hb
        exact ⟨fresh_new _, rfl⟩
  | cons b' free =>
      simp only [hp] at hb
      obtain rfl := Option.some.inj hb
      exact h.free _ _ (by rw [hp]; exact List.mem_cons_self ..)

/-- Handing out a block keeps the pool well formed. -/
theorem WellFormed.allocBuf (h : p.WellFormed) : (p.allocBuf len).2.WellFormed := by
  unfold BufPool.allocBuf
  cases hp : p.pool (getMemLen len).size with
  | nil =>
      by_cases hc : maxBufPoolCap < p.currCap + (getMemLen len).size.toNat / 1024 <;>
        simp only [hp, hc, if_true, if_false]
      · exact h
      · exact ⟨h.free⟩
  | cons b free =>
      refine ⟨fun c b' hb ↦ ?_⟩
      simp only [hp] at hb
      by_cases e : c = (getMemLen len).size
      · subst e
        rw [Function.update_self] at hb
        exact h.free _ _ (by rw [hp]; exact List.mem_cons_of_mem _ hb)
      · rw [Function.update_of_ne e] at hb
        exact h.free c b' hb

/-- Taking back a block succeeds and keeps the pool well formed. -/
theorem WellFormed.release (h : p.WellFormed) {buf : IoBuf} (hb : buf.WellFormed) :
    ∃ p', p.release buf = .ok p' ∧ p'.WellFormed := by
  obtain ⟨buf', hadj, hwf, hhead, -, hlen, -⟩ := (hb.pop buf.datalen).adjust
  have hzero : buf'.datalen = 0 := by
    rw [hlen, IoBuf.datalen_pop hb.datalen_nonneg le_rfl, Int.sub_self]
  refine ⟨{ p with
    pool := Function.update p.pool buf'.capacity
      ({ buf' with datalen := 0 } :: p.pool buf'.capacity) }, ?_, ⟨fun c b hmem ↦ ?_⟩⟩
  · rw [BufPool.release, hadj]
    rfl
  · by_cases e : c = buf'.capacity
    · subst e
      simp only [Function.update_self, List.mem_cons] at hmem
      rcases hmem with rfl | hmem
      · refine ⟨⟨⟨?_, le_rfl, ?_, hwf.length_data⟩, hhead, rfl, le_rfl⟩, rfl⟩
        · simp only [hhead, le_refl]
        · have := hwf.le_capacity
          simp only
          omega
      · exact h.free _ b hmem
    · simp only [Function.update_of_ne e] at hmem
      exact h.free c b hmem

end BufPool

end Ylars.Reactor
