import Ylars.Lib.Transition
import Ylars.Reactor.LinkedPool

/-!
# The books of the buffer pool

The first part relates the pool with its linked lists to the pool of `BufPool`: one answers
as the other, with the contents of its buffers for the buffers.

The second part is the runs of the pool with its users: they ask for buffers of any length,
use those they hold as they like, and release a buffer that they hold.  No buffer is in two
places, those in the free lists are clean and of their size, and `_curr_cap` counts what was
made.
-/

namespace Ylars.Reactor

open Ylars.Lib

/-! ## The pool by its contents -/

namespace LinkedPool

/-- The free lists and the memory made are those of a pool by its contents. -/
structure Represents (p : LinkedPool) (q : BufPool) : Prop where
  free : ∀ c, ∃ l, p.FreeList c l ∧ q.pool c = l.map p.buf
  currCap : q.currCap = p.currCap

namespace Represents

variable {p p' : LinkedPool} {q : BufPool} {out : List BufPtr} {b : BufPtr}

theorem pool_eq (hr : p.Represents q) {c : Int} {l : List BufPtr} (hl : p.FreeList c l) :
    q.pool c = l.map p.buf := by
  obtain ⟨l', hl', hq⟩ := hr.free c
  rw [hq, Linked.unique hl hl']

theorem congr (h : p.Accounted out) (hr : p.Represents q) (p' : LinkedPool) {c : Int}
    (hb : ∀ l, p.FreeList c l → b ∉ l) (hpool : p'.pool c = p.pool c)
    (hnext : ∀ b', b' ≠ b → p'.next b' = p.next b') (hbuf : ∀ b', b' ≠ b → p'.buf b' = p.buf b') :
    ∃ l, p'.FreeList c l ∧ q.pool c = l.map p'.buf := by
  obtain ⟨l, hl, -⟩ := h.free c
  have hne : ∀ b' ∈ l, b' ≠ b := fun b' hb' e ↦ hb l hl (e ▸ hb')
  refine ⟨l, ?_, ?_⟩
  · rw [FreeList, hpool]
    exact Linked.congr hl fun b' hb' ↦ hnext b' (hne b' hb')
  · rw [hr.pool_eq hl]
    exact List.map_congr_left fun b' hb' ↦ (hbuf b' (hne b' hb')).symm

/-- `release` puts the contents of the buffer back. -/
theorem release (h : p.Accounted out) (hr : p.Represents q) (hb : b ∈ out)
    (hrel : p.release b = .ok p') : ∃ q', q.release (p.buf b) = .ok q' ∧ p'.Represents q' := by
  obtain ⟨buf, hbuf, hrel⟩ := Outcome.bind_eq_ok.mp hrel
  obtain rfl := Except.ok.inj hrel
  have hnot : ∀ c l, p.FreeList c l → b ∉ l := by
    intro c l hl hmem
    obtain ⟨l', hl', hf⟩ := h.free c
    rw [Linked.unique hl hl'] at hmem
    exact (hf b hmem).notMem hb
  refine ⟨{ q with
    pool := Function.update q.pool buf.capacity
      ({ buf with datalen := 0 } :: q.pool buf.capacity) }, ?_, fun c ↦ ?_, hr.currCap⟩
  · rw [BufPool.release, hbuf]
    rfl
  · by_cases hc : c = buf.capacity
    · subst hc
      obtain ⟨l, hl, -⟩ := h.free buf.capacity
      refine ⟨b :: l, ?_, ?_⟩
      · simp only [FreeList, Function.update_self]
        exact Linked.push hl (hnot _ l hl)
      · have hmap : l.map (Function.update p.buf b { buf with datalen := 0 }) = l.map p.buf := by
          refine List.map_congr_left fun b' hb' ↦ ?_
          have hne : b' ≠ b := fun e ↦ hnot _ l hl (e ▸ hb')
          rw [Function.update_of_ne hne]
        simp only [Function.update_self, List.map_cons, hmap, hr.pool_eq hl]
    · simp only [Function.update_of_ne hc]
      exact congr h hr _ (hnot c) (Function.update_of_ne hc ..)
        (fun b' hne ↦ Function.update_of_ne hne ..) fun b' hne ↦ Function.update_of_ne hne ..

/-- `alloc_buf` has the contents of its answer. -/
theorem allocBuf (h : p.Accounted out) (hr : p.Represents q) (len : Int) :
    (q.allocBuf len).1 = (p.allocBuf len).1.map (p.allocBuf len).2.buf ∧
      (p.allocBuf len).2.Represents (q.allocBuf len).2 := by
  obtain ⟨l, hl, hf⟩ := h.free (getMemLen len).size
  have hq := hr.pool_eq hl
  have hcap := hr.currCap
  unfold BufPool.allocBuf LinkedPool.allocBuf takeBuf
  cases hp : p.pool (getMemLen len).size with
  | some b =>
      have hl' := hl
      rw [FreeList, hp] at hl'
      obtain ⟨l, rfl, hrest⟩ := hl'.of_some
      simp only [hp, hq, List.map_cons]
      refine ⟨rfl, fun c ↦ ?_, hcap⟩
      by_cases hc : c = (getMemLen len).size
      · subst hc
        refine ⟨l, ?_, by simp only [Function.update_self]⟩
        simp only [FreeList, Function.update_self]
        exact hrest.update (List.nodup_cons.mp (Linked.nodup hl)).1 none
      · simp only [Function.update_of_ne hc]
        refine congr h hr _ (b := b) (fun l' hl' hmem ↦ hc ?_) (Function.update_of_ne hc ..)
          (fun b' hne ↦ Function.update_of_ne hne ..) fun _ _ ↦ rfl
        -- it is in the list of its own size only
        obtain ⟨l'', hl'', hf''⟩ := h.free c
        rw [Linked.unique hl' hl''] at hmem
        rw [← (hf'' b hmem).capacity, (hf b (List.mem_cons_self ..)).capacity]
  | none =>
      have hl' := hl
      rw [FreeList, hp] at hl'
      obtain rfl := hl'.of_none
      by_cases hmax : maxBufPoolCap < p.currCap + (getMemLen len).size.toNat / 1024
      · simp only [hp, hq, hcap, hmax, List.map_nil, if_true, Option.map_none]
        exact ⟨trivial, hr⟩
      · simp only [hp, hq, hcap, hmax, List.map_nil, if_false, Option.map_some]
        refine ⟨by simp only [newIoBuf, Function.update_self], fun c ↦ ?_, rfl⟩
        refine congr h hr _ (b := p.made) (fun l' hl' hmem ↦ ?_) rfl
          (fun b' hb ↦ ?_) fun b' hb ↦ Function.update_of_ne hb ..
        · obtain ⟨l'', hl'', hf''⟩ := h.free c
          rw [Linked.unique hl' hl''] at hmem
          exact lt_irrefl _ (hf'' _ hmem).lt
        · simp only [newIoBuf, Function.update_of_ne hb]

/-- `make_io_buf_pool` makes new contents. -/
theorem makeIoBufPool (hr : p.Represents q) (h : p.Accounted out) (type : MemType) {num : ℕ}
    (hnum : 0 < num) : (p.makeIoBufPool type num).Represents (q.makeIoBufPool type num) := by
  unfold BufPool.makeIoBufPool
  by_cases hcap : maxBufPoolCap < type.size.toNat / 1024 * num + p.currCap
  · rw [hr.currCap, if_pos hcap, LinkedPool.makeIoBufPool, if_pos hcap]
    exact hr
  rw [hr.currCap, if_neg hcap]
  have hmade := made_makeIoBufPool type hnum hcap
  generalize p.makeIoBufPool type num = p' at hmade
  refine ⟨fun c ↦ ?_, hmade.currCap.symm⟩
  by_cases hc : c = type.size
  · subst hc
    refine ⟨List.range' p.made num, ?_, ?_⟩
    · rw [FreeList, hmade.pool, Function.update_self]
      exact hmade.linked
    · simp only [Function.update_self]
      refine (List.eq_replicate_iff.mpr ⟨by simp, fun buf hbuf ↦ ?_⟩).symm
      obtain ⟨b, hb, rfl⟩ := List.mem_map.mp hbuf
      obtain ⟨hb₁, hb₂⟩ := List.mem_range'_1.mp hb
      rw [← hmade.made] at hb₂
      exact hmade.new b hb₁ hb₂
  · obtain ⟨l, hl, hf⟩ := h.free c
    refine ⟨l, ?_, ?_⟩
    · rw [FreeList, hmade.pool, Function.update_of_ne hc]
      exact Linked.congr hl fun b hb ↦ (hmade.old b (hf b hb).lt).2
    · simp only [Function.update_of_ne hc]
      rw [hr.pool_eq hl]
      exact List.map_congr_left fun b hb ↦ (hmade.old b (hf b hb).lt).1.symm

/-- The pool by its contents is the one that the buffers of a connection are safe with. -/
theorem exists_wellFormed (h : p.Accounted out) : ∃ q, p.Represents q ∧ q.WellFormed := by
  choose free hfree hf using h.free
  refine ⟨{ pool := fun c ↦ (free c).map p.buf, currCap := p.currCap },
    ⟨fun c ↦ ⟨free c, hfree c, rfl⟩, rfl⟩, ⟨fun c buf hbuf ↦ ?_⟩⟩
  obtain ⟨b, hb, rfl⟩ := List.mem_map.mp hbuf
  obtain ⟨hlt, -, hcap, hhead, hlen⟩ := hf c b hb
  have hs := h.sound b hlt
  have hdata := hs.length_data
  exact ⟨⟨⟨hs.head_nonneg, hs.datalen_nonneg, by omega, hdata⟩, hhead, hlen, hcap.ge⟩, hcap⟩

end Represents

/-- The two pools while they are made: the sizes above `c` are not there yet. -/
structure Built (c : Int) (p : LinkedPool) (q : BufPool) : Prop where
  accounted : p.Accounted []
  represents : p.Represents q
  above : ∀ d, c < d → p.pool d = none

theorem built_empty (buf : BufPtr → IoBuf) :
    Built 0 { buf := buf, next := fun _ ↦ none, pool := fun _ ↦ none, currCap := 0, made := 0 }
      { pool := fun _ ↦ [], currCap := 0 } where
  accounted := .empty buf
  represents := ⟨fun _ ↦ ⟨[], rfl, rfl⟩, rfl⟩
  above _ _ := rfl

theorem Built.next {c : Int} {p : LinkedPool} {q : BufPool} (h : Built c p q) (type : MemType)
    (num : ℕ) (hnum : 0 < num) (hc : c < type.size) :
    Built type.size (p.makeIoBufPool type num) (q.makeIoBufPool type num) := by
  obtain ⟨hacc, habove⟩ := h.accounted.makeIoBufPool type hnum fun d hd ↦
    h.above d (hc.trans_le hd)
  exact ⟨hacc, h.represents.makeIoBufPool h.accounted type hnum, habove⟩

/-- The constructors make the sizes in increasing order. -/
theorem built_new : Built MemType.m16M.size .new .new := by
  have h := built_empty fun _ ↦ IoBuf.new 0
  have h := h.next .m4K 5000 (by decide) (by decide)
  have h := h.next .m16K 1000 (by decide) (by decide)
  have h := h.next .m64K 500 (by decide) (by decide)
  have h := h.next .m256K 200 (by decide) (by decide)
  have h := h.next .m1M 100 (by decide) (by decide)
  have h := h.next .m4M 50 (by decide) (by decide)
  have h := h.next .m16M 10 (by decide) (by decide)
  unfold LinkedPool.new BufPool.new
  exact h

end LinkedPool

/-! ## Runs -/

/-- What the users of the pool do. -/
inductive PoolAction where
  | allocBuf (len : Int)
  | release (b : BufPtr)
  | pop (b : BufPtr) (n : Int)
  | adjust (b : BufPtr)
  | copy (b src : BufPtr)
  | append (b : BufPtr) (bytes : List UInt8)

/-- The pool, and the buffers that its users hold. -/
structure PoolUse where
  pool : LinkedPool
  held : List BufPtr

namespace PoolUse

/-- After the constructor. -/
def new : PoolUse where
  pool := .new
  held := []

/-- One action. -/
def step (s : PoolUse) : PoolAction → Outcome PoolUse
  | .allocBuf len =>
      let (ret, pool) := s.pool.allocBuf len
      .ok { pool := pool, held := s.held ++ ret.toList }
  | .release b => do
      let pool ← s.pool.release b
      return { pool := pool, held := s.held.erase b }
  | .pop b n => .ok { s with pool := s.pool.pop b n }
  | .adjust b => do
      let pool ← s.pool.adjust b
      return { s with pool := pool }
  | .copy b src => do
      let pool ← s.pool.copy b src
      return { s with pool := pool }
  | .append b bytes => do
      let pool ← s.pool.append b bytes
      return { s with pool := pool }

/-- A buffer is used and released by a user who holds it. -/
def Holds (s : PoolUse) : PoolAction → Prop
  | .allocBuf _ => True
  | .release b => b ∈ s.held
  | .pop b _ => b ∈ s.held
  | .adjust b => b ∈ s.held
  | .copy b src => b ∈ s.held ∧ src ∈ s.held
  | .append b _ => b ∈ s.held

end PoolUse

/-- The pool with its users. -/
def poolUse : LTS PoolUse PoolAction :=
  (LTS.ofFn (fun s ↦ s = PoolUse.new) PoolUse.step).restrict PoolUse.Holds

namespace PoolUse

variable {s t : PoolUse} {a : PoolAction}

theorem step_allocBuf (s : PoolUse) (len : Int) : s.step (.allocBuf len) =
    .ok ⟨(s.pool.allocBuf len).2, s.held ++ (s.pool.allocBuf len).1.toList⟩ := rfl

/-- Every action of a user keeps the books. -/
theorem accounted_step (h : s.pool.Accounted s.held) (hheld : s.Holds a) (hst : s.step a = .ok t) :
    t.pool.Accounted t.held := by
  cases a with
  | allocBuf len =>
      rw [step_allocBuf] at hst
      obtain rfl := Except.ok.inj hst
      generalize hall : s.pool.allocBuf len = x
      obtain ⟨ret, pool⟩ := x
      cases ret with
      | none =>
          obtain rfl := LinkedPool.eq_of_allocBuf_none hall
          simpa using h
      | some b => exact (h.allocBuf hall).1
  | release b =>
      obtain ⟨pool, hrel, hst⟩ := Outcome.bind_eq_ok.mp hst
      obtain rfl := Except.ok.inj hst
      exact Outcome.of_exists_ok (h.release hheld) hrel
  | pop b n =>
      obtain rfl := Except.ok.inj hst
      exact h.pop hheld n
  | adjust b =>
      obtain ⟨pool, hadj, hst⟩ := Outcome.bind_eq_ok.mp hst
      obtain rfl := Except.ok.inj hst
      exact h.adjust hheld hadj
  | copy b src =>
      obtain ⟨pool, hcopy, hst⟩ := Outcome.bind_eq_ok.mp hst
      obtain rfl := Except.ok.inj hst
      exact h.copy hheld.1 hheld.2 hcopy
  | append b bytes =>
      obtain ⟨pool, happ, hst⟩ := Outcome.bind_eq_ok.mp hst
      obtain rfl := Except.ok.inj hst
      exact h.append hheld happ

/-- The books are kept in every run. -/
theorem accounted_of_reachable (h : poolUse.Reachable s) : s.pool.Accounted s.held := by
  refine LTS.Reachable.induction (I := fun s ↦ s.pool.Accounted s.held) ?_ ?_ h
  · rintro s rfl
    exact LinkedPool.built_new.accounted
  · rintro s a t - hacc ⟨hheld, hst⟩
    exact accounted_step hacc hheld hst

theorem represents_of_reachable (h : poolUse.Reachable s) :
    ∃ q, s.pool.Represents q ∧ q.WellFormed :=
  LinkedPool.Represents.exists_wellFormed (accounted_of_reachable h)

/-- **The books of the pool are kept.**  In every state that its users can lead the pool to,
no buffer is handed out twice, handed out and free, or free in two places; the free lists
end, and hold clean buffers of their size; a buffer is clean and unlinked when `alloc_buf`
returns it; a buffer that is handed out can be released; and `_curr_cap` is the size of all
buffers made, and at most the limit. -/
theorem pool_accounted (h : poolUse.Reachable s) :
    s.held.Nodup ∧
    (∀ c, ∃ l, s.pool.FreeList c l) ∧
    (∀ c l, s.pool.FreeList c l → l.Nodup ∧ ∀ b ∈ l, b ∉ s.held ∧
      (s.pool.buf b).capacity = c ∧ (s.pool.buf b).head = 0 ∧ (s.pool.buf b).datalen = 0) ∧
    (∀ c c' l l', s.pool.FreeList c l → s.pool.FreeList c' l' → c ≠ c' → l.Disjoint l') ∧
    (∀ len b pool, s.pool.allocBuf len = (some b, pool) →
      b ∉ s.held ∧ pool.next b = none ∧ (pool.buf b).head = 0 ∧ (pool.buf b).datalen = 0) ∧
    (∀ b ∈ s.held, ∃ pool, s.pool.release b = .ok pool) ∧
    (s.pool.currCap : Int) = s.pool.totalCapacity / 1024 ∧ s.pool.currCap ≤ maxBufPoolCap := by
  have hacc := accounted_of_reachable h
  -- a list is the one that the invariant speaks of
  have hfree : ∀ c l, s.pool.FreeList c l → ∀ b ∈ l, s.pool.Free s.held c b := by
    intro c l hl
    obtain ⟨l', hl', hf⟩ := hacc.free c
    rw [Linked.unique hl hl']
    exact hf
  refine ⟨hacc.nodup, fun c ↦ ?_, fun c l hl ↦ ⟨Linked.nodup hl, fun b hb ↦ ?_⟩,
    fun c c' l l' hl hl' hne b hb hb' ↦ hne ?_, fun len b pool hall ↦ ?_, fun b hb ↦ ?_, ?_,
    hacc.le_cap⟩
  · obtain ⟨l, hl, -⟩ := hacc.free c
    exact ⟨l, hl⟩
  · obtain ⟨-, hnot, hcap, hhead, hlen⟩ := hfree c l hl b hb
    exact ⟨hnot, hcap, hhead, hlen⟩
  · rw [← (hfree c l hl b hb).capacity, (hfree c' l' hl' b hb').capacity]
  · obtain ⟨hacc', hnext, hhead, hlen⟩ := hacc.allocBuf hall
    refine ⟨fun hmem ↦ ?_, hnext, hhead, hlen⟩
    exact List.disjoint_of_nodup_append hacc'.nodup hmem (List.mem_singleton.mpr rfl)
  · obtain ⟨pool, hrel, -⟩ := hacc.release hb
    exact ⟨pool, hrel⟩
  · rw [hacc.total]
    omega

/-- The first request gets a buffer of the smallest size. -/
theorem allocBuf_new : ∃ b pool, LinkedPool.new.allocBuf 10 = (some b, pool) ∧
    (pool.buf b).capacity = 4096 := by
  have hbuilt := LinkedPool.built_new
  obtain ⟨hsame, -⟩ := hbuilt.represents.allocBuf hbuilt.accounted 10
  generalize LinkedPool.new.allocBuf 10 = answer at hsame
  obtain ⟨ret, pool⟩ := answer
  cases ret with
  | none => exact absurd (BufPool.allocBuf_eq_none.mp hsame) (by decide)
  | some b => exact ⟨b, pool, rfl, (BufPool.wellFormed_new.allocBuf_some hsame).2⟩

/-- A buffer that is released is the next one of its size. -/
theorem release_allocBuf {p p' : LinkedPool} {b : BufPtr} {len : Int} (h : (p.buf b).Sound)
    (hcap : (p.buf b).capacity = (getMemLen len).size) (hrel : p.release b = .ok p') :
    (p'.allocBuf len).1 = some b := by
  obtain ⟨buf, hclear, -, hsame, -⟩ := h.exists_clear
  simp only [LinkedPool.release, hclear, Outcome.ok_bind] at hrel
  obtain rfl := Except.ok.inj hrel
  simp only [LinkedPool.allocBuf, LinkedPool.takeBuf, hsame, hcap, Function.update_self]

/-- A buffer is handed out, used and released, and handed out again. -/
theorem pool_accounted_first :
    ∃ b s, poolUse.Run new [.allocBuf 10, .append b [7], .release b, .allocBuf 10] s ∧
      s.held = [b] ∧ (s.pool.buf b).datalen = 0 ∧ (∀ c l, s.pool.FreeList c l → b ∉ l) ∧
      (∃ pool, s.pool.release b = .ok pool) ∧ s.pool.currCap ≤ maxBufPoolCap := by
  obtain ⟨b, pool₁, halloc, hcap⟩ := allocBuf_new
  have hnew : poolUse.Reachable new := .init rfl
  obtain ⟨-, -, -, -, hclean, -⟩ := pool_accounted hnew
  obtain ⟨-, -, -, hlen⟩ := hclean 10 b pool₁ halloc
  have hstep₁ : poolUse.step new (.allocBuf 10) ⟨pool₁, [b]⟩ := by
    refine ⟨trivial, (step_allocBuf new 10).trans ?_⟩
    rw [show new.pool.allocBuf 10 = _ from halloc]
    rfl
  have hacc₁ := accounted_of_reachable (hnew.step hstep₁)
  have hb : b ∈ [b] := List.mem_singleton.mpr rfl
  -- the byte is stored, and the buffer keeps its size
  have hsound := hacc₁.sound b (hacc₁.lt b hb)
  have hroom : (pool₁.buf b).datalen + ([(7 : UInt8)].length : Int) ≤
      (pool₁.buf b).data.length := by
    rw [hlen, hsound.length_data, hcap]
    decide
  obtain ⟨data, hs⟩ := Block.exists_store _ _ _ hsound.datalen_nonneg hroom
  have happ : pool₁.append b [7] = .ok (pool₁.setBuf b { pool₁.buf b with
      datalen := (pool₁.buf b).datalen + 1, data := data }) := by
    rw [LinkedPool.append, hs]
    rfl
  generalize hpool₂ : pool₁.setBuf b { pool₁.buf b with
    datalen := (pool₁.buf b).datalen + 1, data := data } = pool₂ at happ
  have hcap₂ : (pool₂.buf b).capacity = 4096 := by
    simp only [← hpool₂, LinkedPool.setBuf, Function.update_self]
    exact hcap
  have hstep₂ : poolUse.step ⟨pool₁, [b]⟩ (.append b [7]) ⟨pool₂, [b]⟩ :=
    ⟨hb, Outcome.bind_eq_ok.mpr ⟨pool₂, happ, rfl⟩⟩
  have hreach₂ := (hnew.step hstep₁).step hstep₂
  have hacc₂ := accounted_of_reachable hreach₂
  -- it is released, and found at the front of its list
  obtain ⟨-, -, -, -, -, hrelease, -⟩ := pool_accounted hreach₂
  obtain ⟨pool₃, hrel⟩ := hrelease b hb
  have hstep₃ : poolUse.step ⟨pool₂, [b]⟩ (.release b) ⟨pool₃, []⟩ := by
    refine ⟨hb, Outcome.bind_eq_ok.mpr ⟨pool₃, hrel, ?_⟩⟩
    rw [List.erase_cons_head]
    rfl
  have hreach₃ := hreach₂.step hstep₃
  have hagain : (pool₃.allocBuf 10).1 = some b :=
    release_allocBuf (hacc₂.sound b (hacc₂.lt b hb)) hcap₂ hrel
  generalize halloc₄ : pool₃.allocBuf 10 = answer at hagain
  obtain ⟨ret, pool₄⟩ := answer
  obtain rfl : ret = some b := hagain
  obtain ⟨-, -, -, -, hclean₃, -⟩ := pool_accounted hreach₃
  have hstep₄ : poolUse.step ⟨pool₃, []⟩ (.allocBuf 10) ⟨pool₄, [b]⟩ := by
    refine ⟨trivial, (step_allocBuf _ 10).trans ?_⟩
    rw [halloc₄]
    rfl
  obtain ⟨-, -, hfree, -, -, hrelease₄, -, hmax⟩ := pool_accounted (hreach₃.step hstep₄)
  exact ⟨b, ⟨pool₄, [b]⟩, .cons hstep₁ (.cons hstep₂ (.cons hstep₃ (.cons hstep₄ (.nil _)))), rfl,
    (hclean₃ 10 b pool₄ halloc₄).2.2.2, fun c l hl hmem ↦ ((hfree c l hl).2 b hmem).1 hb,
    hrelease₄ b hb, hmax⟩

end PoolUse

end Ylars.Reactor
