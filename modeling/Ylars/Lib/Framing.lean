import Mathlib.Data.List.Basic

/-!
# Framing a stream

A `Framing` writes frames one after the other on a stream and says what stands at
the front of a string: a whole frame, the beginning of one, or no legal frame.
The four laws are about one frame; this file carries them over to streams.

`parse` takes frames off the front as long as there are any.  `Reads` relates what
a reader has seen of a stream, the frames it has taken off and the rest it holds;
it does not mention how the stream was cut, and it determines the frames
(`Reads.unique`).  A reader of a legal stream never meets an illegal frame
(`Reads.parse_ok`), has taken off a prefix of the frames written
(`Reads.isPrefix`), and all of them at the end (`Reads.eq_of_encAll`).
-/

universe u v

namespace Ylars.Lib

/-- What stands at the front of a string. -/
inductive Front (F : Type u) (β : Type v) where
  /-- The beginning of a frame. -/
  | need
  /-- No legal frame. -/
  | bad
  /-- A frame, followed by the rest. -/
  | frame (f : F) (rest : List β)

/-- A way to write frames on a stream and to find them again. -/
structure Framing (F : Type u) (β : Type v) where
  /-- The cells of a frame. -/
  enc : F → List β
  /-- The frames that the reader accepts. -/
  Legal : F → Prop
  /-- What stands at the front of a string. -/
  front : List β → Front F β
  front_nil : front [] = .need
  front_enc : ∀ f rest, Legal f → front (enc f ++ rest) = .frame f rest
  front_prefix : ∀ f p, Legal f → p <+: enc f → p ≠ enc f → front p = .need
  front_frame : ∀ bs f rest, front bs = .frame f rest → Legal f ∧ bs = enc f ++ rest

namespace Framing

variable {F : Type u} {β : Type v} (S : Framing F β)

/-- Frames written one after the other. -/
def encAll (fs : List F) : List β := fs.flatMap S.enc

/-- Taking frames off the front, at most `n`: the frames, the rest, and whether no
illegal frame was met. -/
def parseN : ℕ → List β → List F × List β × Bool
  | 0, bs => ([], bs, true)
  | n + 1, bs =>
      match S.front bs with
      | .need => ([], bs, true)
      | .bad => ([], bs, false)
      | .frame f rest =>
          let (fs, rest, ok) := parseN n rest
          (f :: fs, rest, ok)

/-- Taking all frames off the front. -/
def parse (bs : List β) : List F × List β × Bool := S.parseN bs.length bs

/-- The reader has seen `seen`, has taken off the frames `fs` and holds `held`. -/
structure Reads (seen : List β) (fs : List F) (held : List β) : Prop where
  legal : ∀ f ∈ fs, S.Legal f
  eq : seen = S.encAll fs ++ held
  need : S.front held = .need

variable {S} {bs rest seen held chunk : List β} {fs gs : List F} {f : F}

@[simp] theorem encAll_nil : S.encAll [] = [] := rfl

@[simp] theorem encAll_cons : S.encAll (f :: fs) = S.enc f ++ S.encAll fs := rfl

@[simp] theorem encAll_append : S.encAll (fs ++ gs) = S.encAll fs ++ S.encAll gs :=
  List.flatMap_append ..

theorem enc_ne_nil (h : S.Legal f) : S.enc f ≠ [] := by
  intro he
  have h' := S.front_enc f [] h
  rw [he, List.nil_append, S.front_nil] at h'
  cases h'

/-- Taking a frame off makes the string shorter. -/
theorem length_lt_of_front (h : S.front bs = .frame f rest) : rest.length < bs.length := by
  obtain ⟨hf, rfl⟩ := S.front_frame bs f rest h
  have := List.length_pos_iff.mpr (enc_ne_nil hf)
  rw [List.length_append]
  omega

/-- What stands at the front of a piece of a legal stream: a whole frame of the stream,
or the beginning of one. -/
theorem front_of_isPrefix (hl : ∀ g ∈ gs, S.Legal g) (h : bs <+: S.encAll gs) :
    (∃ g gs' rest, gs = g :: gs' ∧ S.front bs = .frame g rest ∧ rest <+: S.encAll gs') ∨
      S.front bs = .need := by
  cases gs with
  | nil =>
      obtain rfl := List.prefix_nil.mp h
      exact .inr S.front_nil
  | cons g gs =>
      have hg := hl g (List.mem_cons_self ..)
      rw [encAll_cons] at h
      rcases List.prefix_or_prefix_of_prefix h (List.prefix_append _ _) with hp | ⟨rest, rfl⟩
      · by_cases he : bs = S.enc g
        · subst he
          refine .inl ⟨g, gs, [], rfl, ?_, List.nil_prefix⟩
          simpa using S.front_enc g [] hg
        · exact .inr (S.front_prefix g bs hg hp he)
      · exact .inl ⟨g, gs, rest, rfl, S.front_enc g rest hg,
          (List.prefix_append_right_inj _).mp h⟩

/-! ## Parsing a string -/

/-- What parsing gives: the frames and the rest make up the string, and the frames are
legal. -/
theorem parseN_sound (n : ℕ) (bs : List β) :
    bs = S.encAll (S.parseN n bs).1 ++ (S.parseN n bs).2.1 ∧
      ∀ f ∈ (S.parseN n bs).1, S.Legal f := by
  induction n generalizing bs with
  | zero => exact ⟨rfl, fun _ h ↦ by cases h⟩
  | succ n ih =>
      rw [parseN]
      cases hfr : S.front bs with
      | need => exact ⟨rfl, fun _ h ↦ by cases h⟩
      | bad => exact ⟨rfl, fun _ h ↦ by cases h⟩
      | frame f rest =>
          obtain ⟨hf, rfl⟩ := S.front_frame bs f rest hfr
          obtain ⟨he, hleg⟩ := ih rest
          refine ⟨?_, fun g hg ↦ ?_⟩
          · simp only [encAll_cons, List.append_assoc]
            rw [← he]
          · rcases List.mem_cons.mp hg with rfl | hg
            · exact hf
            · exact hleg g hg

/-- When nothing illegal is met, parsing goes on until a frame is incomplete. -/
theorem front_parseN {n : ℕ} (hn : bs.length ≤ n) (hok : (S.parseN n bs).2.2 = true) :
    S.front (S.parseN n bs).2.1 = .need := by
  induction n generalizing bs with
  | zero =>
      obtain rfl := List.length_eq_zero_iff.mp (Nat.le_zero.mp hn)
      exact S.front_nil
  | succ n ih =>
      rw [parseN] at hok ⊢
      cases hfr : S.front bs with
      | need => simp [hfr]
      | bad =>
          rw [hfr] at hok
          cases hok
      | frame f rest =>
          rw [hfr] at hok
          have := length_lt_of_front hfr
          exact ih (by omega) hok

/-- Nothing illegal is met in a piece of a legal stream. -/
theorem parseN_ok (n : ℕ) (hl : ∀ g ∈ gs, S.Legal g) (h : bs <+: S.encAll gs) :
    (S.parseN n bs).2.2 = true := by
  induction n generalizing bs gs with
  | zero => rfl
  | succ n ih =>
      rw [parseN]
      rcases front_of_isPrefix hl h with ⟨g, gs', rest, rfl, hfr, hrest⟩ | hfr
      · rw [hfr]
        exact ih (fun g' hg' ↦ hl g' (List.mem_cons_of_mem _ hg')) hrest
      · rw [hfr]

/-! ## Reading a stream -/

namespace Reads

theorem nil : S.Reads [] [] [] where
  legal _ h := by cases h
  eq := rfl
  need := S.front_nil

theorem feed (h : S.Reads seen fs held) (hok : (S.parse (held ++ chunk)).2.2 = true) :
    S.Reads (seen ++ chunk) (fs ++ (S.parse (held ++ chunk)).1)
      (S.parse (held ++ chunk)).2.1 := by
  obtain ⟨he, hl⟩ := parseN_sound (S := S) (held ++ chunk).length (held ++ chunk)
  refine ⟨fun f hf ↦ ?_, ?_, front_parseN (Nat.le_refl _) hok⟩
  · rcases List.mem_append.mp hf with hf | hf
    · exact h.legal f hf
    · exact hl f hf
  · rw [encAll_append, List.append_assoc, parse, ← he, h.eq, List.append_assoc]

/-- The frames taken off a legal stream are the first ones written. -/
theorem isPrefix (h : S.Reads seen fs held) (hl : ∀ g ∈ gs, S.Legal g)
    (hs : seen <+: S.encAll gs) : fs <+: gs := by
  induction fs generalizing seen gs with
  | nil => exact List.nil_prefix
  | cons f fs ih =>
      have hfr : S.front seen = .frame f (S.encAll fs ++ held) := by
        rw [h.eq, encAll_cons, List.append_assoc]
        exact S.front_enc f _ (h.legal f (List.mem_cons_self ..))
      rcases front_of_isPrefix hl hs with ⟨g, gs', rest, rfl, hfr', hrest⟩ | hfr'
      · rw [hfr] at hfr'
        obtain ⟨rfl, rfl⟩ := Front.frame.inj hfr'
        rw [List.cons_prefix_cons]
        exact ⟨rfl, ih ⟨fun f' hf' ↦ h.legal f' (List.mem_cons_of_mem _ hf'), rfl, h.need⟩
          (fun g hg ↦ hl g (List.mem_cons_of_mem _ hg)) hrest⟩
      · rw [hfr] at hfr'
        cases hfr'

/-- Nothing illegal is met when the next piece of a legal stream arrives. -/
theorem parse_ok (h : S.Reads seen fs held) (hl : ∀ g ∈ gs, S.Legal g)
    (hs : seen ++ chunk <+: S.encAll gs) : (S.parse (held ++ chunk)).2.2 = true := by
  have hpre : fs <+: gs :=
    h.isPrefix hl ((List.prefix_append _ _).trans hs)
  obtain ⟨gs', rfl⟩ := hpre
  rw [h.eq, encAll_append, List.append_assoc, List.prefix_append_right_inj] at hs
  exact parseN_ok _ (fun g hg ↦ hl g (List.mem_append_right _ hg)) hs

/-- When all of a legal stream is read, all its frames are taken off. -/
theorem eq_of_encAll (h : S.Reads (S.encAll gs) fs held) (hl : ∀ g ∈ gs, S.Legal g) :
    fs = gs ∧ held = [] := by
  obtain ⟨gs', rfl⟩ := h.isPrefix hl (List.prefix_rfl)
  have he := h.eq
  rw [encAll_append, List.append_cancel_left_eq] at he
  cases gs' with
  | nil => exact ⟨(List.append_nil _).symm, he.symm⟩
  | cons g gs' =>
      have hn := h.need
      rw [← he, encAll_cons, S.front_enc g _ (hl g (by simp))] at hn
      cases hn

/-- What is taken off and what is held depend only on what has been read. -/
theorem unique {fs' : List F} {held' : List β} (h : S.Reads seen fs held)
    (h' : S.Reads seen fs' held') : fs = fs' ∧ held = held' := by
  induction fs generalizing seen fs' with
  | nil =>
      cases fs' with
      | nil => exact ⟨rfl, (h.eq.symm.trans h'.eq)⟩
      | cons f' fs' =>
          have hn := h.need
          rw [show held = seen from h.eq.symm, h'.eq, encAll_cons, List.append_assoc,
            S.front_enc f' _ (h'.legal f' (List.mem_cons_self ..))] at hn
          cases hn
  | cons f fs ih =>
      have hfr : S.front seen = .frame f (S.encAll fs ++ held) := by
        rw [h.eq, encAll_cons, List.append_assoc]
        exact S.front_enc f _ (h.legal f (List.mem_cons_self ..))
      cases fs' with
      | nil =>
          have hn := h'.need
          rw [show held' = seen from h'.eq.symm, hfr] at hn
          cases hn
      | cons f' fs' =>
          rw [h'.eq, encAll_cons, List.append_assoc,
            S.front_enc f' _ (h'.legal f' (List.mem_cons_self ..))] at hfr
          obtain ⟨rfl, he⟩ := Front.frame.inj hfr
          obtain ⟨rfl, rfl⟩ := ih
            ⟨fun g hg ↦ h.legal g (List.mem_cons_of_mem _ hg), rfl, h.need⟩
            ⟨fun g hg ↦ h'.legal g (List.mem_cons_of_mem _ hg), he.symm, h'.need⟩
          exact ⟨rfl, rfl⟩

end Reads

end Framing

end Ylars.Lib
