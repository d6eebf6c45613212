import Ylars.Reactor.Delivery

/-!
# Which messages the two ends accept

The `do_read` of the server and of the client differ in the limit they compare the length
of a message with, and neither `send_msg` has one.  A `Reader` is an end of a connection
with its `do_read`; whatever the chunks, it dispatches a message exactly when the message
is within its limit (`Reader.dispatches_iff`).
-/

namespace Ylars.Reactor

open Ylars.Lib ReactorBuf

/-- Some bytes that arrive together, and the pool at that moment. -/
structure Chunk where
  pool : AmplePool
  bytes : List UInt8
  ne_nil : bytes ≠ []

/-- The bytes of some chunks. -/
def Chunk.concat (chunks : List Chunk) : List UInt8 := chunks.flatMap Chunk.bytes

/-- An end of a connection that reads: what `do_read` does with a chunk is to parse the
bytes held together with the chunk, and to close the connection at an abnormal head. -/
structure Reader (limit : Int) (σ : Type) where
  doRead : Alloc → Socket → σ → Outcome (List Message × σ)
  ibuf : σ → InBuf
  isOpen : σ → Bool
  doRead_spec : ∀ (chunk : Chunk) (c : σ), isOpen c = true → (ibuf c).Ready →
    ∃ c', doRead chunk.pool.1 (.pending chunk.bytes) c =
        .ok (((framing limit).parse ((ibuf c).content ++ chunk.bytes)).1, c') ∧
      isOpen c' = ((framing limit).parse ((ibuf c).content ++ chunk.bytes)).2.2 ∧
      (isOpen c' = true → (ibuf c').Ready ∧
        (ibuf c').content = ((framing limit).parse ((ibuf c).content ++ chunk.bytes)).2.1)

namespace Reader

variable {limit : Int} {σ : Type} (R : Reader limit σ)

/-- Reading chunk after chunk until the connection is closed. -/
def reads : List Chunk → σ → Outcome (List Message × σ)
  | [], c => .ok ([], c)
  | chunk :: chunks, c =>
      if R.isOpen c then do
        let (ms, c) ← R.doRead chunk.pool.1 (.pending chunk.bytes) c
        let (ms', c) ← reads chunks c
        return (ms ++ ms', c)
      else .ok ([], c)

/-- The connection is open and between two messages. -/
def AtBoundary (c : σ) : Prop :=
  R.isOpen c = true ∧ (R.ibuf c).Ready ∧ (R.ibuf c).content = []

/-- The chunks make the reader dispatch the message `m`, nothing else, and stay open. -/
def Dispatches (chunks : List Chunk) (m : Message) (c : σ) : Prop :=
  ∃ c', R.reads chunks c = .ok ([m], c') ∧ R.isOpen c' = true

variable {R} {c c' : σ} {m : Message} {chunks : List Chunk}

/-- Only messages within the limit are dispatched. -/
theorem within_of_reads {ms : List Message} (hopen : R.isOpen c = true)
    (hready : (R.ibuf c).Ready) (h : R.reads chunks c = .ok (ms, c')) :
    ∀ m ∈ ms, m.Within limit := by
  induction chunks generalizing c ms with
  | nil =>
      obtain ⟨rfl, rfl⟩ := Prod.mk.inj (Except.ok.inj h)
      exact fun _ hm ↦ by cases hm
  | cons chunk chunks ih =>
      obtain ⟨c₁, hd, hok, hrest⟩ := R.doRead_spec chunk c hopen hready
      have hleg := (Framing.parseN_sound (S := framing limit)
        ((R.ibuf c).content ++ chunk.bytes).length ((R.ibuf c).content ++ chunk.bytes)).2
      rw [reads, if_pos hopen, hd] at h
      simp only [Outcome.ok_bind, Outcome.bind_eq_ok] at h
      obtain ⟨⟨ms', c₂⟩, hr, he⟩ := h
      obtain ⟨rfl, rfl⟩ := Prod.mk.inj (Except.ok.inj he)
      intro m hm
      rcases List.mem_append.mp hm with hm | hm
      · exact hleg m hm
      · cases hopen₁ : R.isOpen c₁ with
        | true => exact ih hopen₁ (hrest hopen₁).1 hr m hm
        | false =>
            -- a closed reader dispatches nothing
            have hnil : R.reads chunks c₁ = .ok ([], c₁) := by
              cases chunks with
              | nil => rfl
              | cons _ _ => rw [reads, hopen₁]; rfl
            rw [hnil] at hr
            obtain ⟨rfl, rfl⟩ := Prod.mk.inj (Except.ok.inj hr)
            cases hm

/-- A reader of a stream of messages within its limit stays open and takes them off. -/
theorem exists_reads (chunks : List Chunk) {gs fs : List Message} {seen : List UInt8}
    (hopen : R.isOpen c = true) (hready : (R.ibuf c).Ready) (hl : ∀ g ∈ gs, g.Within limit)
    (h : (framing limit).Reads seen fs (R.ibuf c).content)
    (hs : seen ++ Chunk.concat chunks <+: (framing limit).encAll gs) :
    ∃ ms c', R.reads chunks c = .ok (ms, c') ∧ R.isOpen c' = true ∧
      (framing limit).Reads (seen ++ Chunk.concat chunks) (fs ++ ms) (R.ibuf c').content := by
  induction chunks generalizing c fs seen with
  | nil =>
      refine ⟨[], c, rfl, hopen, ?_⟩
      simpa [Chunk.concat] using h
  | cons chunk chunks ih =>
      have hcat : seen ++ Chunk.concat (chunk :: chunks) =
          (seen ++ chunk.bytes) ++ Chunk.concat chunks := by
        simp [Chunk.concat]
      rw [hcat] at hs ⊢
      obtain ⟨c₁, hd, hok, hrest⟩ := R.doRead_spec chunk c hopen hready
      have hparse := h.parse_ok hl ((List.prefix_append _ _).trans hs)
      rw [hparse] at hok
      obtain ⟨hready₁, hcont₁⟩ := hrest hok
      have h₁ := h.feed hparse
      rw [← hcont₁] at h₁
      obtain ⟨ms, c₂, hr, hopen₂, h₂⟩ := ih hok hready₁ h₁ hs
      refine ⟨_, c₂, ?_, hopen₂, by rw [← List.append_assoc]; exact h₂⟩
      rw [reads, if_pos hopen, hd]
      simp only [Outcome.ok_bind, hr]
      rfl

/-- Whatever the chunks, a message is dispatched exactly when it is within the limit. -/
theorem dispatches_iff (h : R.AtBoundary c) (hlen : m.data.length < 2 ^ 31)
    (hchunks : Chunk.concat chunks = m.bytes) :
    R.Dispatches chunks m c ↔ (m.data.length : Int) ≤ limit := by
  obtain ⟨hopen, hready, hcont⟩ := h
  constructor
  · rintro ⟨c', hr, -⟩
    exact (within_of_reads hopen hready hr m (List.mem_singleton_self m)).1
  · intro hle
    have hl : ∀ g ∈ [m], g.Within limit := fun g hg ↦ by
      obtain rfl := List.mem_singleton.mp hg
      exact ⟨hle, hlen⟩
    have henc : (framing limit).encAll [m] = Chunk.concat chunks := by
      simp [hchunks, framing]
    have h₀ : (framing limit).Reads [] [] (R.ibuf c).content := by
      rw [hcont]
      exact .nil
    obtain ⟨ms, c', hr, hopen', hreads⟩ := exists_reads chunks hopen hready hl h₀
      ⟨[], by rw [List.append_nil, List.nil_append, henc]⟩
    rw [List.nil_append, ← henc, List.nil_append] at hreads
    obtain ⟨rfl, -⟩ := hreads.eq_of_encAll hl
    exact ⟨c', hr, hopen'⟩

end Reader

/-- The server end. -/
def connReader : Reader msgMaxLimit TcpConn where
  doRead := TcpConn.doRead
  ibuf := TcpConn.ibuf
  isOpen c := decide (0 < c.sockfd ∧ ServerCall.endHook ∉ c.calls)
  doRead_spec chunk c hopen hready := by
    rw [decide_eq_true_eq] at hopen
    obtain ⟨buf', hr, -, hbuf⟩ :=
      readMsgs_pending msgMaxLimit hready chunk.pool.2 chunk.ne_nil
    simp only [TcpConn.doRead, hr, Outcome.ok_bind]
    cases hok : ((framing msgMaxLimit).parse (c.ibuf.content ++ chunk.bytes)).2.2 with
    | true => exact ⟨_, rfl, decide_eq_true hopen, fun _ ↦ hbuf hok⟩
    | false =>
        have hclosed : decide (0 < ({ c with ibuf := buf' } : TcpConn).clean.sockfd ∧
            ServerCall.endHook ∉ ({ c with ibuf := buf' } : TcpConn).clean.calls) = false := by
          simp [TcpConn.clean, hopen.1]
        exact ⟨_, rfl, hclosed, fun h ↦ by rw [hclosed] at h; cases h⟩

/-- The client end. -/
def clientReader (nlMsgmax : Int) : Reader nlMsgmax TcpClient where
  doRead := TcpClient.doRead nlMsgmax
  ibuf := TcpClient.ibuf
  isOpen c := decide (0 ≤ c.sockfd)
  doRead_spec chunk c hopen hready := by
    rw [decide_eq_true_eq] at hopen
    obtain ⟨buf', hr, -, hbuf⟩ :=
      readMsgs_pending nlMsgmax hready chunk.pool.2 chunk.ne_nil
    simp only [TcpClient.doRead, hr, Outcome.ok_bind]
    cases hok : ((framing nlMsgmax).parse (c.ibuf.content ++ chunk.bytes)).2.2 with
    | true => exact ⟨_, rfl, decide_eq_true hopen, fun _ ↦ hbuf hok⟩
    | false =>
        have hclosed : decide (0 ≤ ({ c with ibuf := buf' } : TcpClient).clean.sockfd) = false := by
          simp [TcpClient.clean, hopen]
        exact ⟨_, rfl, hclosed, fun h ↦ by rw [hclosed] at h; cases h⟩

theorem atBoundary_new (nlMsgmax : Int) (loop : EventLoop ClientCallback) {sockfd : Int}
    (h : 0 ≤ sockfd) : (clientReader nlMsgmax).AtBoundary (.new loop sockfd) :=
  ⟨decide_eq_true h, ready_none, rfl⟩

/-- `send_msg` of the server with an ample pool appends the message. -/
theorem TcpConn.sendMsg_ample {c : TcpConn} (h : c.obuf.Ready) (p₁ p₂ : AmplePool)
    {m : Message} (hm : m.data ≠ []) :
    ∃ c', c.sendMsg p₁.1 p₂.1 m = .ok (0, c') ∧
      c'.obuf.content = c.obuf.content ++ m.bytes := by
  obtain ⟨buf', hs, -, hc⟩ := appendMsg_ample h p₁.2 p₂.2 hm
  simp only [sendMsg, hs, Outcome.ok_bind]
  exact ⟨_, rfl, hc⟩

/-- **The two ends agree on a message exactly within the receiver's limit.**  A message that
one end has sent is dispatched by the other, under any chunking, if and only if it has at
most `_SC_NL_MSGMAX` bytes on the way to the client, and at most `MSG_MAX_LIMIT` bytes on
the way to the server. -/
theorem dispatches_iff_within (nlMsgmax : Int) (m : Message) (hm : m.data ≠ [])
    (hlen : m.data.length < 2 ^ 31) :
    (∀ (conn conn' : TcpConn) (p₁ p₂ : AmplePool) (ret : Int), conn.obuf.Ready →
      conn.sendMsg p₁.1 p₂.1 m = .ok (ret, conn') → 0 ≤ ret →
        ∃ frame, conn'.obuf.content = conn.obuf.content ++ frame ∧
          ∀ client chunks, (clientReader nlMsgmax).AtBoundary client →
            Chunk.concat chunks = frame →
            ((clientReader nlMsgmax).Dispatches chunks m client ↔
              (m.data.length : Int) ≤ nlMsgmax)) ∧
    (∀ (client client' : TcpClient) (p₁ p₂ : AmplePool) (ret : Int), client.obuf.Ready →
      client.sendMsg p₁.1 p₂.1 m = .ok (ret, client') → 0 ≤ ret →
        ∃ frame, client'.obuf.content = client.obuf.content ++ frame ∧
          ∀ conn chunks, connReader.AtBoundary conn → Chunk.concat chunks = frame →
            (connReader.Dispatches chunks m conn ↔ (m.data.length : Int) ≤ msgMaxLimit)) := by
  constructor
  · intro conn conn' p₁ p₂ ret hready hsend _
    obtain ⟨c', hs, hc⟩ := TcpConn.sendMsg_ample hready p₁ p₂ hm
    rw [hsend] at hs
    obtain ⟨-, rfl⟩ := Prod.mk.inj (Except.ok.inj hs)
    exact ⟨m.bytes, hc, fun client chunks hb he ↦ Reader.dispatches_iff hb hlen he⟩
  · intro client client' p₁ p₂ ret hready hsend _
    obtain ⟨c', hs, -, -, hc⟩ := TcpClient.sendMsg_ample hready p₁ p₂ hm
    rw [hsend] at hs
    obtain ⟨-, rfl⟩ := Prod.mk.inj (Except.ok.inj hs)
    exact ⟨m.bytes, hc, fun conn chunks hb he ↦ Reader.dispatches_iff hb hlen he⟩

/-- A reply of one byte is dispatched, with the bound that `_SC_NL_MSGMAX` has in glibc. -/
theorem dispatches_iff_within_reply :
    ∃ conn' : TcpConn,
      (TcpConn.new .new 5).sendMsg exactPool.1 exactPool.1 ⟨1, [0]⟩ = .ok (0, conn') ∧
      ∀ chunks, Chunk.concat chunks = conn'.obuf.content →
        (clientReader 121).Dispatches chunks ⟨1, [0]⟩ (.new .new 3) := by
  obtain ⟨conn', hs, -⟩ := TcpConn.sendMsg_ample (c := .new .new 5) ready_none exactPool
    exactPool (m := ⟨1, [0]⟩) (by decide)
  obtain ⟨frame, hframe, h⟩ := (dispatches_iff_within 121 ⟨1, [0]⟩ (by decide) (by decide)).1
    _ _ _ _ _ ready_none hs le_rfl
  refine ⟨conn', hs, fun chunks hc ↦
    (h _ chunks (atBoundary_new 121 .new (by decide)) ?_).mpr (by decide)⟩
  rw [hc, hframe]
  rfl

/-- A message above the limit of the client is sent by the server and not dispatched. -/
theorem not_dispatches_of_lt {nlMsgmax : Int} {m : Message} (hlen : m.data.length < 2 ^ 31)
    (hm : m.data ≠ []) (hlt : nlMsgmax < m.data.length) :
    ∃ conn' : TcpConn, (TcpConn.new .new 5).sendMsg exactPool.1 exactPool.1 m = .ok (0, conn') ∧
      ∀ chunks, Chunk.concat chunks = conn'.obuf.content →
        ¬(clientReader nlMsgmax).Dispatches chunks m (.new .new 3) := by
  obtain ⟨conn', hs, hc⟩ := TcpConn.sendMsg_ample (c := .new .new 5) ready_none exactPool
    exactPool hm
  refine ⟨conn', hs, fun chunks he ↦ ?_⟩
  rw [Reader.dispatches_iff (atBoundary_new nlMsgmax .new (by decide)) hlen (by rw [he, hc]; rfl)]
  exact not_le.mpr hlt

/-- A reply of 200 bytes, as a route with many hosts makes it. -/
def longReply : Message where
  msgid := 1
  data := List.replicate 200 0

/-- The long reply is sent by the server and taken for abnormal by the client, for every
`_SC_NL_MSGMAX` below 200. -/
theorem longReply_not_dispatched :
    longReply.data.length = 200 ∧ ∀ nlMsgmax : Int, nlMsgmax < 200 →
      ∃ conn' : TcpConn,
        (TcpConn.new .new 5).sendMsg exactPool.1 exactPool.1 longReply = .ok (0, conn') ∧
        ∀ chunks, Chunk.concat chunks = conn'.obuf.content →
          ¬(clientReader nlMsgmax).Dispatches chunks longReply (.new .new 3) := by
  have hlen : longReply.data.length = 200 := List.length_replicate ..
  refine ⟨hlen, fun nlMsgmax hmax ↦ not_dispatches_of_lt (by rw [hlen]; decide) ?_ ?_⟩
  · exact fun he ↦ by cases hlen.symm.trans (congrArg List.length he)
  · rw [hlen]
    exact hmax

end Ylars.Reactor
