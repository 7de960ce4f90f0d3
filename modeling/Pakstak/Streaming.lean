/-
  `extract_layer` read by read: the verifier hashes what passes through it, the decoder
  reads behind a buffer, and `io::copy` reads the rest.

  `extractLayer` (in `Layer.lean`) takes the body as a whole and decides by its bytes alone;
  here the reader is a source that hands over as much as it likes at each read and fails when
  it likes, and the decoders are arbitrary programs over the buffer and the file system.

  Proved:
  * `maintains_read`: the hash context holds the bytes delivered, each once and in order.
  * `extractLayerFrom_ok`: `Ok` means that the reader reported its end and that all its bytes
    verify under the digest.
  * `extractLayer_of_from`: where the decoders do what `Fs.unpack` stands for, a run that ends
    with `Ok` is a run of `extractLayer`.
-/
import Pakstak.Footprint
import Pakstak.Lib.Reader

namespace Pakstak

open Posix Text Prog Reader

variable (env : Env)

/-! ## Reading through the verifier -/

/-- A program that reads from a source of bytes, beside what the tool does otherwise. -/
abbrev Streams : Type → Type := Prog (Source ⊕ Op) (Sum.elim (SourceReply UInt8 Errno) Reply) Err

/-- The crates `tar`, `flate2` and `zstd`: what they read, and what they do to the output
    directory. -/
structure Unpackers (Δ : Type) where
  tar : PathBuf → Decoder UInt8 Errno Op Reply Err Unit
  gzip : PathBuf → Decoder UInt8 Errno Op Reply Err Unit
  newZstd : Decoder UInt8 Errno Op Reply Err Δ
  zstd : Δ → PathBuf → Decoder UInt8 Errno Op Reply Err Unit

/-- `DEFAULT_BUF_SIZE`, the capacity of `BufReader::new`. -/
def defaultBufSize : Nat := 8 * 1024

/-- `ErrorKind::Interrupted`, which is `EINTR`. -/
def isInterrupted : Errno → Bool
  | .other 4 => true
  | _ => false

def DigestVerifier.read (v : DigestVerifier) (n : Nat) :
    Streams (Except Errno Bytes × DigestVerifier) := do
  match ← (Reader.ask n : Streams (Except Errno Bytes)) with
  | .ok chunk => return (.ok chunk, if 0 < chunk.length then v.update chunk else v)
  | .error e => return (.error e, v)

variable {Δ : Type} (crates : Unpackers Δ)

/-- The `match format` of `extract_layer`. -/
def unpackFrom (peekable : BufReader DigestVerifier UInt8) (outputDir : PathBuf) :
    LayerFormat → Streams (Unit × BufReader DigestVerifier UInt8)
  | .tar =>
    (through DigestVerifier.read defaultBufSize (crates.tar outputDir) peekable).mapError
      (.context ⟨"failed to unpack tar layer into {}", [outputDir.display]⟩)
  | .gzip =>
    (through DigestVerifier.read defaultBufSize (crates.gzip outputDir) peekable).mapError
      (.context ⟨"failed to unpack gzip layer into {}", [outputDir.display]⟩)
  | .zstd => do
    let (decoder, peekable) ←
      (through DigestVerifier.read defaultBufSize crates.newZstd peekable).mapError
        (.context ⟨"failed to initialize zstd layer decoder", []⟩)
    (through DigestVerifier.read defaultBufSize (crates.zstd decoder outputDir) peekable).mapError
      (.context ⟨"failed to unpack zstd layer into {}", [outputDir.display]⟩)

/-- `extract_layer` over a source. -/
def extractLayerFrom (expectedDigest : Bytes) (format : LayerFormat) (outputDir : PathBuf) :
    Streams Unit := do
  let verifier ← (Prog.lift ((DigestVerifier.new expectedDigest).mapError .digest)).mapError
    (.context ⟨"failed to initialize digest verifier for layer {}", [expectedDigest]⟩)
  let ((), peekable) ← unpackFrom crates (.new verifier) outputDir format
  (convertOciWhiteoutsToOverlayfs env outputDir).right.mapError
    (.context ⟨"failed to convert OCI whiteouts in extracted layer {}", [outputDir.display]⟩)
  let (copied, peekable) ←
    peekable.copyToSink DigestVerifier.read defaultBufSize isInterrupted env.fuel
  Prog.lift (copied.mapError fun e =>
    .context ⟨"failed to finish reading layer bytes for digest verification", []⟩ (.io e))
  (Prog.lift ((peekable.inner.verify env.hash).mapError .digest)).mapError
    (.context ⟨"failed to verify layer digest {}", [expectedDigest]⟩)

/-! ## What the verifier has hashed -/

/-- A source of bytes beside the world. -/
def streaming : Machine (Source ⊕ Op) (Sum.elim (SourceReply UInt8 Errno) Reply)
    (Log UInt8 Errno × World) := (source UInt8 Errno).beside (machine env)

/-- `v` is `v₀` after the bytes that were delivered. -/
def Hashed (v₀ v : DigestVerifier) (l : Log UInt8 Errno) : Prop := v = v₀.update (delivered l)

variable {env} {crates} {v₀ v : DigestVerifier}

theorem update_update (v : DigestVerifier) (a b : Bytes) :
    (v.update a).update b = v.update (a ++ b) := by
  simp [DigestVerifier.update]

theorem hashed_nil (v : DigestVerifier) : Hashed v v [] := by
  simp [Hashed, DigestVerifier.update]

/-- One read: the chunk goes to the context as it goes to the caller. -/
theorem maintains_read (v₀ : DigestVerifier) (R : World → Prop) :
    Maintains (streaming env) (fun v s => Hashed v₀ v s.1 ∧ R s.2) (fun s => Ended s.1)
      DigestVerifier.read := by
  intro v n s ⟨hv, hR⟩
  rw [DigestVerifier.read]
  refine ensures_bind ensures_ask fun r s' _ ⟨hl, hw⟩ => ?_
  have hd : delivered s'.1 = delivered s.1 ++ chunkOf r := by rw [hl, delivered_concat]
  rw [← hw] at hR
  cases r with
  | ok chunk =>
    refine ensures_ok trivial ⟨⟨?_, hR⟩, fun hn he => ⟨s.1, n, hn, by rw [hl, Except.ok.inj he]⟩⟩
    have hu : (if 0 < chunk.length then v.update chunk else v) = v.update chunk := by
      cases chunk <;> simp [DigestVerifier.update]
    rw [Hashed, hd, ← update_update, ← hv]
    exact hu
  | error e =>
    refine ensures_ok trivial ⟨⟨?_, hR⟩, fun _ he => by cases he⟩
    rw [Hashed, hd, chunkOf, List.append_nil]
    exact hv

theorem ensures_unpackFrom {peekable : BufReader DigestVerifier UInt8} {outputDir : PathBuf}
    {s : Log UInt8 Errno × World} (h : Hashed v₀ peekable.inner s.1) (format : LayerFormat) :
    Ensures (streaming env) (fun _ => True) (fun a s' => Hashed v₀ a.2.inner s'.1)
      (unpackFrom crates peekable outputDir format) s := by
  have decoder {α : Type} (p : Decoder UInt8 Errno Op Reply Err α)
      {b : BufReader DigestVerifier UInt8} {s : Log UInt8 Errno × World}
      (h : Hashed v₀ b.inner s.1) : Ensures (streaming env) (fun _ => True)
        (fun a s' => Hashed v₀ a.2.inner s'.1)
        (through DigestVerifier.read defaultBufSize p b) s :=
    ensures_mono (ensures_through (maintains_read v₀ fun _ => True) (by decide)
      (fun _ _ _ he hv => ⟨he ▸ hv.1, trivial⟩) p ⟨h, trivial⟩) (fun _ h => h)
      fun _ _ _ ha => ha.1
  cases format with
  | tar => exact ensures_mapError.mpr (decoder _ h)
  | gzip => exact ensures_mapError.mpr (decoder _ h)
  | zstd =>
    exact ensures_bind (ensures_mapError.mpr (decoder _ h)) fun a s' _ ha =>
      ensures_mapError.mpr (decoder _ ha)

/-- What is left after the conversion: the rest of the source, then the check. -/
theorem ensures_drain {digest : Bytes} {b : BufReader DigestVerifier UInt8}
    {s : Log UInt8 Errno × World} {m m' : Msg} (hn : DigestVerifier.new digest = .ok v₀)
    (h : Hashed v₀ b.inner s.1) :
    Ensures (streaming env) (fun _ => True)
      (fun _ s' => s'.2 = s.2 ∧ Ended s'.1 ∧ Verifies env.hash (delivered s'.1) digest)
      ((b.copyToSink DigestVerifier.read defaultBufSize isInterrupted env.fuel).bind fun a =>
        (Prog.lift (a.1.mapError fun e => .context m (.io e))).bind fun _ =>
          (Prog.lift ((a.2.inner.verify env.hash).mapError .digest)).mapError (.context m')) s := by
  refine ensures_bind (ensures_copyToSink (maintains_read v₀ fun w => w = s.2) (by decide) ⟨h, rfl⟩)
    fun a s₃ _ h₃ => ?_
  refine ensures_bind (ensures_lift (P := fun _ s => s = s₃ ∧ a.1 = .ok ()) trivial
    fun _ hc => ⟨rfl, ok_of_mapError hc⟩) fun _ s₄ _ ⟨hs₄, hcopied⟩ => ?_
  subst hs₄
  refine ensures_mapError.mpr (ensures_lift trivial fun _ hv => ⟨h₃.1.2, h₃.2 hcopied, ?_⟩)
  rw [Verifies, verifyBytes, hn]
  exact (congrArg (DigestVerifier.verify env.hash) h₃.1.1).symm.trans (ok_of_mapError hv)

theorem ensures_extractLayerFrom {digest : Bytes} {format : LayerFormat} {outputDir : PathBuf}
    {w : World} :
    Ensures (streaming env) (fun _ => True)
      (fun _ s' => Ended s'.1 ∧ Verifies env.hash (delivered s'.1) digest)
      (extractLayerFrom env crates digest format outputDir) ([], w) := by
  rw [extractLayerFrom]
  refine ensures_bind (ensures_mapError.mpr (ensures_lift
    (P := fun v s => DigestVerifier.new digest = .ok v ∧ s = ([], w)) trivial
    fun v hv => ⟨ok_of_mapError hv, rfl⟩)) fun v s _ ⟨hn, hs⟩ => ?_
  subst hs
  refine ensures_bind (ensures_unpackFrom (hashed_nil v) format) fun a s₁ _ h₁ => ?_
  refine ensures_bind (ensures_mapError.mpr (ensures_mono (ensures_right ensures_true)
    (fun _ _ => trivial) fun _ _ _ h => h)) fun _ s₂ _ ⟨h₂, _⟩ => ?_
  exact ensures_mono (ensures_drain hn (h₂ ▸ h₁)) (fun _ h => h) fun _ _ _ h => h.2

/-- Whatever the source does and whatever the decoders ask for, `Ok` means that the source
    reported its end and that all its bytes verify under the digest. -/
theorem extractLayerFrom_ok {digest : Bytes} {format : LayerFormat} {outputDir : PathBuf}
    {l : Log UInt8 Errno} {w w' : World}
    (h : Exec (streaming env) (extractLayerFrom env crates digest format outputDir) ([], w)
      (some (.ok ())) (l, w')) :
    Ended l ∧ Verifies env.hash (delivered l) digest ∧
      ∀ data broken, Reader.Serves data broken l →
        broken = false ∧ delivered l = data ∧ Verifies env.hash data digest := by
  obtain ⟨hend, hv⟩ := (ensures_exec ensures_extractLayerFrom h).2 () rfl
  refine ⟨hend, hv, fun data broken hs => ?_⟩
  obtain ⟨hb, hd⟩ := serves_ended hs hend
  exact ⟨hb, hd, hd ▸ hv⟩

namespace FiveBytes

def digest : Bytes := utf8 "sha256:" ++ List.replicate 64 48

/-- A decoder that reads two bytes, looks at the next ones and takes one of them. -/
def decoder : Decoder UInt8 Errno Op Reply Err Unit :=
  .ask (.inl (.read 2)) fun _ => .ask (.inl .fillBuf) fun _ => .ask (.inl (.consume 1)) fun _ =>
    .ret (.ok ())

def decoders : Unpackers Unit :=
  ⟨fun _ => decoder, fun _ => decoder, .ret (.ok ()), fun _ _ => decoder⟩

/-- The source has the text `abcde`, and hands over two bytes at most. -/
def answer : (o : Source ⊕ Op) → Log UInt8 Errno × World →
    Sum.elim (SourceReply UInt8 Errno) Reply o × (Log UInt8 Errno × World)
  | .inl (.read n), s =>
    let r : Except Errno Bytes :=
      .ok (((utf8 "abcde").drop (delivered s.1).length).take (min n 2))
    (r, (s.1 ++ [(n, r)], s.2))
  | .inr o, s => ((calm.reply (smallEnv []) o s.2).1, (s.1, (calm.reply (smallEnv []) o s.2).2))

theorem answer_step (o : Source ⊕ Op) (s : Log UInt8 Errno × World) :
    (streaming (smallEnv [])).step o s (answer o s).1 (answer o s).2 := by
  cases o with
  | inl o =>
    obtain ⟨n⟩ := o
    exact ⟨⟨(List.length_take_le _ _).trans (Nat.min_le_left _ _), rfl⟩, rfl⟩
  | inr o => exact ⟨calm.reply_step (smallEnv []) o s.2, rfl⟩

def run : Option (Except Err Unit) × (Log UInt8 Errno × World) :=
  (extractLayerFrom (smallEnv []) decoders digest .tar (pathOf OneMarker.place)).run answer
    ([], OneMarker.world (utf8 "y"))

theorem exec_run : Exec (streaming (smallEnv []))
    (extractLayerFrom (smallEnv []) decoders digest .tar (pathOf OneMarker.place))
    ([], OneMarker.world (utf8 "y")) (some (.ok ())) (run.2.1, run.2.2) := by
  have h := Prog.exec_run answer_step
    (extractLayerFrom (smallEnv []) decoders digest .tar (pathOf OneMarker.place))
    ([], OneMarker.world (utf8 "y"))
  have hr : run.1 = some (.ok ()) := by decide +kernel
  exact hr ▸ h

end FiveBytes

theorem extractLayerFrom_ok_five : Ended FiveBytes.run.2.1 ∧
    Verifies (smallEnv []).hash (delivered FiveBytes.run.2.1) FiveBytes.digest ∧
      ∀ data broken, Reader.Serves data broken FiveBytes.run.2.1 →
        broken = false ∧ delivered FiveBytes.run.2.1 = data ∧
          Verifies (smallEnv []).hash data FiveBytes.digest :=
  extractLayerFrom_ok FiveBytes.exec_run

/-! ## The body as a whole -/

/-- The source has the bytes of `body`. -/
def FromBody (body : Body) :
    (o : Source ⊕ Op) → Log UInt8 Errno × World → Sum.elim (SourceReply UInt8 Errno) Reply o → Prop
  | .inl (.read n), s, (r : Except Errno Bytes) =>
    Reader.Serves body.data body.broken (s.1 ++ [(n, r)])
  | .inr _, _, _ => True

theorem ensures_fromBody {α : Type} {body : Body} {p : Streams α} {s : Log UInt8 Errno × World}
    {P : α → Log UInt8 Errno × World → Prop}
    (h : Ensures ((streaming env).only (FromBody body)) (fun _ => True) P p s)
    (hs : Reader.Serves body.data body.broken s.1) :
    Ensures ((streaming env).only (FromBody body))
      (fun s => Reader.Serves body.data body.broken s.1) P p s := by
  refine ensures_mono (ensures_and_stable (J := fun s => Reader.Serves body.data body.broken s.1)
    (fun o s r s' hstep hJ => ?_) (fun o s s' hm hJ => ?_) h hs) (fun _ h => h.2)
    fun _ _ _ h => h
  · cases o with
    | inl o =>
      obtain ⟨n⟩ := o
      exact hstep.1.1.2 ▸ hstep.2
    | inr o => exact hstep.1.2 ▸ hJ
  · cases o with
    | inl o => exact hm.1.elim
    | inr o => exact hm.2 ▸ hJ

theorem serves_nil (data : Bytes) (broken : Bool) :
    Reader.Serves data broken ([] : Log UInt8 Errno) where
  part := List.nil_prefix
  complete l' n h := by simp at h

/-- Where the decoders leave the tree that `Fs.unpack` leaves of `body`, a run that ends with
    `Ok` is a run of `extractLayer`. -/
theorem extractLayer_of_from {body : Body} {digest : Bytes} {format : LayerFormat}
    {outputDir : PathBuf} {l : Log UInt8 Errno} {w w' : World}
    (hu : ∀ v a s, Exec ((streaming env).only (FromBody body))
      (unpackFrom crates (.new v) outputDir format) ([], w) (some (.ok a)) s →
        Step env (.unpack format body outputDir) w (.ok ()) s.2)
    (h : Exec ((streaming env).only (FromBody body))
      (extractLayerFrom env crates digest format outputDir) ([], w) (some (.ok ())) (l, w')) :
    Exec (machine env) (extractLayer env body digest format outputDir) w (some (.ok ())) w' := by
  suffices hrun : Ensures ((streaming env).only (FromBody body)) (fun _ => True)
      (fun _ s' => ∃ v w₁, DigestVerifier.new digest = .ok v ∧
        Step env (.unpack format body outputDir) w (.ok ()) w₁ ∧
        Exec (machine env) (convertOciWhiteoutsToOverlayfs env outputDir) w₁ (some (.ok ())) s'.2 ∧
        Ended s'.1 ∧ Verifies env.hash (delivered s'.1) digest)
      (extractLayerFrom env crates digest format outputDir) ([], w) by
    have hall := ensures_exec (ensures_fromBody hrun (serves_nil _ _)) h
    obtain ⟨v, w₁, hn, hunpack, hconvert, hend, hv⟩ := hall.2 () rfl
    obtain ⟨hb, hd⟩ := serves_ended hall.1 hend
    rw [hd, Verifies, verifyBytes, hn] at hv
    rw [extractLayer]
    refine exec_bind (exec_mapError (a := v) (by rw [hn]; exact .done _ _)) ?_
    refine exec_bind (.ask hunpack (.done _ _)) (exec_bind (.done _ _) ?_)
    refine exec_bind (exec_mapError hconvert) ?_
    rw [hb]
    refine exec_mapError ?_
    have hverify : (v.update body.data).verify env.hash = .ok () := hv
    rw [hverify]
    exact .done _ _
  rw [extractLayerFrom]
  refine ensures_bind (ensures_mapError.mpr (ensures_lift
    (P := fun v s => DigestVerifier.new digest = .ok v ∧ s = ([], w)) trivial
    fun v hv => ⟨ok_of_mapError hv, rfl⟩)) ?_
  rintro v s - ⟨hn, rfl⟩
  refine ensures_bind (ensures_exec_self
    (ensures_only (ensures_unpackFrom (hashed_nil v) format))) ?_
  rintro a s₁ - ⟨h₁, hx₁⟩
  refine ensures_bind (ensures_mapError.mpr (ensures_mono
    (ensures_only (ensures_right (ensures_exec_self ensures_true))) (fun _ _ => trivial)
    fun _ _ _ h => h)) ?_
  rintro _ s₂ - ⟨h₂, _, hx₂⟩
  refine ensures_mono (ensures_only (ensures_drain hn (h₂ ▸ h₁))) (fun _ h => h) fun _ s₃ _ h₃ => ?_
  exact ⟨v, s₁.2, hn, hu v a s₁ hx₁, h₃.1 ▸ hx₂, h₃.2⟩

end Pakstak
