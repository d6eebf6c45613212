import Ylars.Lib.Framing

/-!
# A stream between two ends

A `Pipe` is what has passed from a writer to a reader: the frames given to the writer, the
cells on their way, those that have arrived, and the frames that the reader has taken off.
`Carries` relates it to the cells that wait at the writer and those that the reader holds.

The reader may be stricter than the writer.  A frame that it `Refuses` stops it: neither that
frame nor a later one is taken off.  Until then it takes off the frames in the order in which
they were given, each once (`Carries.isPrefix`), and when nothing is on its way it has taken
off all of them (`Carries.eq_of_drained`).  `onWay` are the frames in between.
-/

universe u v

namespace Ylars.Lib

variable {F : Type u} {β : Type v}

namespace Framing

variable (S : Framing F β)

/-- The reader never takes the frame off, and stops when all of it is there. -/
structure Refuses (f : F) : Prop where
  not_frame : ∀ p, p <+: S.enc f → ∀ g rest, S.front p ≠ .frame g rest
  bad : ∀ rest, S.front (S.enc f ++ rest) = .bad

/-- A frame that the reader takes off or refuses. -/
def Decides (f : F) : Prop := S.Legal f ∨ S.Refuses f

variable {S} {seen held : List β} {fs gs : List F} {f : F}

/-- What is found at the front of a stream is its first frame. -/
theorem eq_of_front {rest : List β} (hd : ∀ g ∈ gs, S.Decides g) (hs : seen <+: S.encAll gs)
    (h : S.front seen = .frame f rest) : ∃ gs', gs = f :: gs' ∧ rest <+: S.encAll gs' := by
  cases gs with
  | nil =>
      obtain rfl := List.prefix_nil.mp hs
      rw [S.front_nil] at h
      cases h
  | cons g gs =>
      rw [encAll_cons] at hs
      have hor := List.prefix_or_prefix_of_prefix hs (List.prefix_append _ _)
      rcases hd g List.mem_cons_self with hg | hg
      · rcases hor with hp | ⟨tail, rfl⟩
        · have he : seen = S.enc g := by
            by_contra hne
            rw [S.front_prefix g seen hg hp hne] at h
            cases h
          have hfront := S.front_enc g [] hg
          rw [List.append_nil, ← he, h] at hfront
          obtain ⟨rfl, rfl⟩ := Front.frame.inj hfront
          exact ⟨gs, rfl, List.nil_prefix⟩
        · rw [S.front_enc g tail hg] at h
          obtain ⟨rfl, rfl⟩ := Front.frame.inj h
          exact ⟨gs, rfl, (List.prefix_append_right_inj _).mp hs⟩
      · rcases hor with hp | ⟨tail, rfl⟩
        · exact absurd h (hg.not_frame seen hp f rest)
        · rw [hg.bad tail] at h
          cases h

/-- What a reader has taken off is what was written first. -/
theorem Reads.isPrefix_of_decides (h : S.Reads seen fs held) (hd : ∀ g ∈ gs, S.Decides g)
    (hs : seen <+: S.encAll gs) : fs <+: gs := by
  induction fs generalizing seen gs with
  | nil => exact List.nil_prefix
  | cons f fs ih =>
      have hfront : S.front seen = .frame f (S.encAll fs ++ held) := by
        rw [h.eq, encAll_cons, List.append_assoc]
        exact S.front_enc f _ (h.legal f List.mem_cons_self)
      obtain ⟨gs', rfl, hrest⟩ := eq_of_front hd hs hfront
      rw [List.cons_prefix_cons]
      exact ⟨rfl, ih ⟨fun g hg ↦ h.legal g (List.mem_cons_of_mem _ hg), rfl, h.need⟩
        (fun g hg ↦ hd g (List.mem_cons_of_mem _ hg)) hrest⟩

/-- When it has read everything and goes on, it has taken off everything. -/
theorem Reads.eq_of_decides (h : S.Reads (S.encAll gs) fs held) (hd : ∀ g ∈ gs, S.Decides g) :
    fs = gs := by
  obtain ⟨gs', rfl⟩ := h.isPrefix_of_decides hd List.prefix_rfl
  cases gs' with
  | nil => exact (List.append_nil _).symm
  | cons g gs' =>
      have he := h.eq
      rw [encAll_append, List.append_cancel_left_eq, encAll_cons] at he
      have hn := h.need
      rw [← he] at hn
      rcases hd g (List.mem_append_right _ List.mem_cons_self) with hg | hg
      · rw [S.front_enc g _ hg] at hn
        cases hn
      · rw [hg.bad] at hn
        cases hn

end Framing

/-- What has passed from a writer to a reader. -/
structure Pipe (F : Type u) (β : Type v) where
  /-- The frames given to the writer. -/
  sent : List F
  /-- The cells written that have not arrived. -/
  wire : List β
  /-- The cells that have arrived. -/
  read : List β
  /-- The frames that the reader has taken off. -/
  received : List F

namespace Pipe

/-- Before anything is sent. -/
def new : Pipe F β := ⟨[], [], [], []⟩

/-- A frame is given to the writer. -/
def send (p : Pipe F β) (f : F) : Pipe F β := { p with sent := p.sent ++ [f] }

/-- Some cells are written. -/
def write (p : Pipe F β) (taken : List β) : Pipe F β := { p with wire := p.wire ++ taken }

/-- A chunk arrives, and frames are taken off. -/
def deliver (p : Pipe F β) (chunk : List β) (fs : List F) : Pipe F β :=
  { p with
    wire := p.wire.drop chunk.length
    read := p.read ++ chunk
    received := p.received ++ fs }

/-- The frames that have been given to the writer and not taken off. -/
def onWay (p : Pipe F β) : List F := p.sent.drop p.received.length

/-- From one state of the pipe to a later one the reader takes off some frames that were on
their way, and none is sent. -/
structure Takes (p q : Pipe F β) (fs : List F) : Prop where
  received : q.received = p.received ++ fs
  onWay : p.onWay = fs ++ q.onWay

/-- The pipe between a writer at which some cells wait and a reader that holds some. -/
structure Carries (S : Framing F β) (p : Pipe F β) (waiting held : List β) : Prop where
  decides : ∀ f ∈ p.sent, S.Decides f
  stream : p.read ++ p.wire ++ waiting = S.encAll p.sent
  reads : S.Reads p.read p.received held

variable {S : Framing F β} {p : Pipe F β} {waiting held rest chunk taken : List β} {f : F}

theorem takes_write (p : Pipe F β) (taken : List β) : p.Takes (p.write taken) [] :=
  ⟨(List.append_nil _).symm, rfl⟩

theorem Takes.refl (p : Pipe F β) : p.Takes p [] := ⟨(List.append_nil _).symm, rfl⟩

namespace Carries

theorem new : Carries S new [] [] where
  decides _ h := by cases h
  stream := rfl
  reads := .nil

/-- A frame goes behind what waits. -/
theorem send (h : Carries S p waiting held) (hf : S.Decides f) :
    Carries S (p.send f) (waiting ++ S.enc f) held where
  decides g hg := by
    rcases List.mem_append.mp hg with hg | hg
    · exact h.decides g hg
    · obtain rfl := List.mem_singleton.mp hg
      exact hf
  stream := by
    show p.read ++ p.wire ++ (waiting ++ S.enc f) = S.encAll (p.sent ++ [f])
    rw [← List.append_assoc, h.stream, Framing.encAll_append, Framing.encAll_cons,
      Framing.encAll_nil, List.append_nil]
  reads := h.reads

/-- The front of what waits is written. -/
theorem write (h : Carries S p (taken ++ rest) held) : Carries S (p.write taken) rest held where
  decides := h.decides
  stream := by
    show p.read ++ (p.wire ++ taken) ++ rest = S.encAll p.sent
    rw [← h.stream]
    simp only [List.append_assoc]
  reads := h.reads

theorem read_isPrefix (h : Carries S p waiting held) : p.read <+: S.encAll p.sent := by
  rw [← h.stream, List.append_assoc]
  exact List.prefix_append _ _

/-- Nothing illegal arrives when nothing illegal is sent. -/
theorem parse_ok (h : Carries S p waiting held) (hl : ∀ f ∈ p.sent, S.Legal f)
    (hc : chunk <+: p.wire) : (S.parse (held ++ chunk)).2.2 = true := by
  refine h.reads.parse_ok hl ?_
  obtain ⟨tail, htail⟩ := hc
  rw [← h.stream, ← htail, ← List.append_assoc, List.append_assoc]
  exact List.prefix_append _ _

/-- The front of what is on its way arrives. -/
theorem deliver (h : Carries S p waiting held) (hc : chunk <+: p.wire)
    (hok : (S.parse (held ++ chunk)).2.2 = true) :
    Carries S (p.deliver chunk (S.parse (held ++ chunk)).1) waiting
      (S.parse (held ++ chunk)).2.1 where
  decides := h.decides
  stream := by
    obtain ⟨tail, htail⟩ := hc
    show p.read ++ chunk ++ p.wire.drop chunk.length ++ waiting = S.encAll p.sent
    rw [← h.stream, ← htail, List.drop_left, List.append_assoc p.read]
  reads := h.reads.feed hok

/-- **The reader has taken off the first frames**, in their order, each once. -/
theorem isPrefix (h : Carries S p waiting held) : p.received <+: p.sent :=
  h.reads.isPrefix_of_decides h.decides h.read_isPrefix

/-- **All of them, when nothing waits and nothing is on its way.** -/
theorem eq_of_drained (h : Carries S p [] held) (hwire : p.wire = []) : p.received = p.sent := by
  have hstream := h.stream
  rw [hwire, List.append_nil, List.append_nil] at hstream
  have hreads := h.reads
  rw [hstream] at hreads
  exact hreads.eq_of_decides h.decides

theorem received_append_onWay (h : Carries S p waiting held) :
    p.received ++ p.onWay = p.sent := by
  obtain ⟨tail, htail⟩ := h.isPrefix
  rw [onWay, ← htail, List.drop_left]

theorem sent_of_takes {q : Pipe F β} {waiting' held' : List β} {fs : List F}
    (h : Carries S p waiting held) (h' : Carries S q waiting' held') (ht : p.Takes q fs) :
    q.sent = p.sent := by
  rw [← h'.received_append_onWay, ← h.received_append_onWay, ht.received, ht.onWay,
    List.append_assoc]

theorem onWay_send (h : Carries S p waiting held) (f : F) :
    (p.send f).onWay = p.onWay ++ [f] :=
  List.drop_append_of_le_length h.isPrefix.length_le

/-- What arrives was first on its way. -/
theorem takes_deliver (h : Carries S p waiting held) (hc : chunk <+: p.wire)
    (hok : (S.parse (held ++ chunk)).2.2 = true) :
    p.Takes (p.deliver chunk (S.parse (held ++ chunk)).1) (S.parse (held ++ chunk)).1 where
  received := rfl
  onWay := by
    have hafter := (h.deliver hc hok).received_append_onWay
    have hsum : p.received ++ p.onWay = p.received ++ ((S.parse (held ++ chunk)).1 ++
        (p.deliver chunk (S.parse (held ++ chunk)).1).onWay) := by
      rw [h.received_append_onWay, ← List.append_assoc]
      exact hafter.symm
    exact List.append_cancel_left hsum

theorem onWay_eq_nil (h : Carries S p [] held) (hwire : p.wire = []) : p.onWay = [] := by
  rw [onWay, h.eq_of_drained hwire]
  exact List.drop_length

end Carries

end Pipe

end Ylars.Lib
