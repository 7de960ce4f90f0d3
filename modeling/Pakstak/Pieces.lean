/-
  Layers whose archive was cut into pieces, and compressed piece by piece.

  The digest of a layer covers all of the blob, and the decoder decides how much of it is
  content: `GzDecoder` stops after the first member, the zstd decoder goes on over all frames.

  Proved:
  * `ensures_extract`, `exec_extract`: what an extraction can leave, exactly, given what the
    archive unpacks to.
  * `pieces_leave_iff`: the pieces leave what the archive itself would if and only if they are
    zstd frames, or the first gzip member alone converts to the same.
  * `members_lose_rest`: an archive cut between two entries, with real gzip members.
-/
import Pakstak.Permissions
import Pakstak.Stacking

namespace Pakstak

open Posix Prog FileTree

/-! ## What an extraction leaves -/

/-- What the conversion of `c` can leave of `x`: a tree for every order of the listings. -/
def Leaves (x : Node) (c : Place) (g : Labels) : Prop :=
  ∃ ord, Listings x.find (DirUnder x c) ord ∧ Converted x.find (DirUnder x c) ord g

variable {env : Env} {c : Place} {w : World} {m : Meta} {kids : List (Bytes × Node)}

theorem get_put_self {x t : Node} (h : x.get c = some t) (t' : Node) :
    (x.put c (some t')).get c = some t' := by
  rcases List.eq_nil_or_concat c with rfl | ⟨d, n, rfl⟩
  · simp
  · rw [List.concat_eq_append] at h ⊢
    rw [get_put_append (dirAt_of_get_append h (by simp)), get_nil]

theorem unpacked_eq {reader : Body} {format : LayerFormat} (hp : PlainPlace c)
    (hg : w.root.get c = some (.dir m kids)) : unpacked env format reader w.root (pathOf c) =
      match env.unpack format reader (.dir m kids) with
      | some (.dir m' kids') => .ok (w.root.put c (some (.dir m' kids')))
      | _ => .error (.other 0) := by
  have hw := walk_dirAt ⟨m, kids, hg⟩ hp
  cases hu : env.unpack format reader (.dir m kids) with
  | none => simp only [unpacked, pathOf, hw, hg, hu]
  | some t => cases t <;> simp only [unpacked, pathOf, hw, hg, hu]

/-- An extraction that returns `Ok` has unpacked an archive, and leaves what the conversion can
    leave of it. -/
theorem ensures_extract {reader : Body} {digest : Bytes} {format : LayerFormat} (hp : PlainPlace c)
    (hg : w.root.get c = some (.dir m kids)) :
    Ensures (machine env) (fun _ => True)
      (fun _ w' => ∃ m' kids', env.unpack format reader (.dir m kids) = some (.dir m' kids') ∧
        Leaves (w.root.put c (some (.dir m' kids'))) c w'.root.find)
      (extractLayer env reader digest format (pathOf c)) w := by
  rw [extractLayer]
  refine ensures_bind (P := fun _ w' => w' = w)
    (ensures_withContext.mpr (ensures_lift trivial fun _ _ => rfl)) ?_
  rintro v w' - rfl
  refine ensures_step (P := fun _ w₁ => ∃ m' kids',
      env.unpack format reader (.dir m kids) = some (.dir m' kids') ∧
        w₁ = w'.withRoot (w'.root.put c (some (.dir m' kids'))))
    (ensures_unpack trivial (fun x hx => ⟨trivial, by simp⟩) (fun x hx => ⟨trivial, fun _ _ => ?_⟩)
      (by simp)) ?_
  · rw [unpacked_eq hp hg] at hx
    split at hx <;> cases hx
    rename_i m' kids' hu
    exact ⟨m', kids', hu, rfl⟩
  rintro - _ - ⟨m', kids', hu, rfl⟩
  have hd : (w'.root.put c (some (.dir m' kids'))).DirAt c :=
    ⟨m', kids', get_put_self hg _⟩
  refine ensures_bind (ensures_withContext.mpr (ensures_convert_any hd hp)) fun _ w₂ _ h => ?_
  split
  · exact ensures_fail trivial
  · exact ensures_withContext.mpr (ensures_lift trivial fun _ _ => ⟨m', kids', hu, h⟩)

/-- And all of this can be left, by a layer that has its digest. -/
theorem exec_extract {data digest : Bytes} {format : LayerFormat} {m' : Meta}
    {kids' : List (Bytes × Node)} {g : Labels} (hp : PlainPlace c)
    (hg : w.root.get c = some (.dir m kids)) (hv : Verifies env.hash data digest)
    (hu : env.unpack format ⟨data, false⟩ (.dir m kids) = some (.dir m' kids'))
    (henough : Enough env (w.root.put c (some (.dir m' kids'))) c)
    (hl : Leaves (w.root.put c (some (.dir m' kids'))) c g) :
    ∃ w', Exec (machine env) (extractLayer env ⟨data, false⟩ digest format (pathOf c)) w
      (some (.ok ())) w' ∧ w'.root.find = g := by
  obtain ⟨ord, hord, hconv⟩ := hl
  have hd : (w.root.put c (some (.dir m' kids'))).DirAt c := ⟨m', kids', get_put_self hg _⟩
  obtain ⟨w', hx, hw'⟩ := exec_convert
    (w := w.withRoot (w.root.put c (some (.dir m' kids')))) hp hd henough hord hconv
  refine ⟨w', ?_, hw'⟩
  rw [Verifies, verifyBytes] at hv
  cases hnew : DigestVerifier.new digest with
  | error e => rw [hnew] at hv; cases hv
  | ok v =>
    rw [hnew] at hv
    have hverify : (v.update data).verify env.hash = .ok () := hv
    have hstep : (machine env).step (.unpack format ⟨data, false⟩ (pathOf c)) w (.ok ())
        (w.withRoot (w.root.put c (some (.dir m' kids')))) :=
      .inl (.inl ⟨_, by rw [unpacked_eq hp hg, hu], rfl, rfl⟩)
    rw [extractLayer]
    refine exec_bind (a := v) (exec_mapError ?_) (.ask hstep
      (exec_bind (a := ()) (.done _ _) (exec_bind (exec_mapError hx) ?_)))
    · rw [hnew]
      exact .done _ _
    · refine exec_mapError ?_
      rw [hverify]
      exact .done _ _

/-! ## Pieces -/

/-- All that one unpacked tree can convert to, the other can. -/
def ConvertsTo (root : Node) (c : Place) (x₁ x : Option Node) : Prop :=
  ∀ m₁ kids₁ g, x₁ = some (.dir m₁ kids₁) → Leaves (root.put c (some (.dir m₁ kids₁))) c g →
    ∃ m' kids', x = some (.dir m' kids') ∧ Leaves (root.put c (some (.dir m' kids'))) c g

/-- The blob whose pieces were compressed apart. -/
def blobOf (compress : Bytes → Bytes) (pieces : List Bytes) : Bytes :=
  (pieces.map compress).flatten

/-- An archive `t₁ ++ ..` cut into pieces and compressed. `untar` is the unpacking of an archive
    that may end at any entry; `hgzip` and `hzstd` say how far the decoders read. -/
theorem pieces_leave_iff {untar : Bytes → Node → Option Node} {compress : Bytes → Bytes}
    {format : LayerFormat} {t₁ : Bytes} {ts : List Bytes} {digest digest' : Bytes}
    (hp : PlainPlace c) (hg : w.root.get c = some (.dir m kids)) (hformat : format ≠ .tar)
    (htar : ∀ x, env.unpack .tar ⟨(t₁ :: ts).flatten, false⟩ x = untar (t₁ :: ts).flatten x)
    (hgzip : format = .gzip →
      ∀ x, env.unpack .gzip ⟨blobOf compress (t₁ :: ts), false⟩ x = untar t₁ x)
    (hzstd : format = .zstd →
      ∀ x, env.unpack .zstd ⟨blobOf compress (t₁ :: ts), false⟩ x = untar (t₁ :: ts).flatten x)
    (hv : Verifies env.hash (blobOf compress (t₁ :: ts)) digest)
    (hv' : Verifies env.hash (t₁ :: ts).flatten digest')
    (henough : ∀ data ∈ [t₁, (t₁ :: ts).flatten], ∀ x, untar data (.dir m kids) = some x →
      Enough env (w.root.put c (some x)) c) :
    (∀ w', Exec (machine env) (extractLayer env ⟨blobOf compress (t₁ :: ts), false⟩ digest format
        (pathOf c)) w (some (.ok ())) w' →
      ∃ w'', Exec (machine env) (extractLayer env ⟨(t₁ :: ts).flatten, false⟩ digest' .tar
        (pathOf c)) w (some (.ok ())) w'' ∧ w''.root.find = w'.root.find) ↔
    (format = .gzip →
      ConvertsTo w.root c (untar t₁ (.dir m kids)) (untar (t₁ :: ts).flatten (.dir m kids))) := by
  -- what the archive itself can leave
  have whole {m' : Meta} {kids' : List (Bytes × Node)} {g : Labels}
      (hu : untar (t₁ :: ts).flatten (.dir m kids) = some (.dir m' kids'))
      (hl : Leaves (w.root.put c (some (.dir m' kids'))) c g) :=
    exec_extract hp hg hv' ((htar _).trans hu) (henough _ (by simp) _ hu) hl
  constructor
  · rintro h rfl m₁ kids₁ g hu hl
    obtain ⟨w', hx, rfl⟩ := exec_extract hp hg hv ((hgzip rfl _).trans hu)
      (henough _ (by simp) _ hu) hl
    obtain ⟨w'', hx'', heq⟩ := h w' hx
    obtain ⟨m', kids', hu', hl'⟩ := (ensures_exec (ensures_extract hp hg) hx'').2 () rfl
    exact ⟨m', kids', (htar _).symm.trans hu', heq ▸ hl'⟩
  · intro h w' hx
    obtain ⟨m₁, kids₁, hu, hl⟩ := (ensures_exec (ensures_extract hp hg) hx).2 () rfl
    cases format with
    | tar => exact absurd rfl hformat
    | gzip =>
      obtain ⟨m', kids', hu', hl'⟩ := h rfl m₁ kids₁ _ ((hgzip rfl _).symm.trans hu) hl
      exact whole hu' hl'
    | zstd => exact whole ((hzstd rfl _).symm.trans hu) hl

theorem Leaves.kept {x : Node} {g : Labels} {e : Place} {n : Bytes} (h : Leaves x c g)
    (hf : x.find (e ++ [n]) ≠ none) (hn : ¬ IsMarker n) : g (e ++ [n]) ≠ none := by
  obtain ⟨ord, -, hc⟩ := h
  by_cases hmade : Whited x.find (DirUnder x c) ord (e ++ [n])
  · rw [hc.made _ hmade]
    simp
  have hgone : ¬ Erased (DirUnder x c) ord (e ++ [n]) := by
    rintro ⟨e', n', hq, -, -, hm⟩
    obtain ⟨-, hn'⟩ := List.append_inj' hq rfl
    cases hn'
    exact hn hm
  by_cases hmark : Marked x.find (DirUnder x c) ord (e ++ [n])
  · rw [hc.marked _ hmark hgone hmade, Ne, map_opaqueInode_eq_none]
    exact hf
  · rw [hc.same _ hmade hgone hmark]
    exact hf

/-- A directory with leaves only. -/
theorem dirUnder_flat {x : Node} {e : Place} (hg : x.get c = some (.dir m kids))
    (hk : ∀ k ∈ kids, ∃ l, k.2 = .leaf l) (he : DirUnder x c e) : e = c := by
  obtain ⟨-, ⟨m', kids', hd⟩, r, rfl⟩ := he
  cases r with
  | nil => exact List.append_nil c
  | cons n r =>
    rw [get_append_of_some hg, get_cons] at hd
    obtain ⟨t, ht, hd⟩ := Option.bind_eq_some_iff.mp hd
    obtain ⟨l, rfl⟩ := hk _ (mem_of_kid ht)
    cases r <;> cases hd

/-! ## An archive cut between its entries -/

namespace CutArchive

open Restored

/-- The entry of the empty file `x`. -/
def first : Bytes := header "x" "00000000000" "006125"

/-- The entry of the empty file `y`, and the end of the archive. -/
def second : Bytes := header "y" "00000000000" "006126" ++ zeros 1024

/-- What `gzip -9` makes of the two. -/
def firstMember : Bytes :=
  fromHex "1f8b08000000000002ffab60a03d300002331313300d04e83416b699a1912983" ++
    fromHex "82011ddcc6505a5c925804b49261640200c2a2bfeb00020000"

def secondMember : Bytes :=
  fromHex "1f8b08000000000002ffab64a03d300002331313300d04e83416b699a1911983" ++
    fromHex "82011ddcc6505a5c925804b49261148c8251300a4616000013d566c400060000"

def compress (piece : Bytes) : Bytes := if piece = first then firstMember else secondMember

def blob : Bytes := firstMember ++ secondMember

def wholeDigest : Bytes :=
  utf8 "sha256:2d05c237839900585ea8a4515feb1a1e98f8b3e65de65e7bf7ed987347ae13d7"

def blobDigest : Bytes :=
  utf8 "sha256:f6214a3fe9ddb5c7b7d243e4e04c4e9f310b123cec5686d860c1587f662e1124"

def withFile (name : String) (x : Node) : Node :=
  x.setKid (utf8 name) (some (.leaf (.file newFile [])))

def untar (data : Bytes) (x : Node) : Option Node :=
  if data = first then some (withFile "x" x)
  else if data = [first, second].flatten then some (withFile "y" (withFile "x" x))
  else none

/-- `GzDecoder` reads the first member. -/
def unpack : LayerFormat → Body → Node → Option Node
  | .tar, body, x => untar body.data x
  | .gzip, body, x => if body.data = blob then untar first x else none
  | .zstd, _, _ => none

/-- The crates, as they read this archive. -/
def crates : Env :=
  { smallEnv [⟨[first, second].flatten,
        fromHex "2d05c237839900585ea8a4515feb1a1e98f8b3e65de65e7bf7ed987347ae13d7", none⟩,
      ⟨blob, fromHex "f6214a3fe9ddb5c7b7d243e4e04c4e9f310b123cec5686d860c1587f662e1124", none⟩] with
    unpack := unpack }

/-- The directory `/d` is empty. -/
def world : World := ⟨.dir newDir [(utf8 "d", .dir newDir [])], [], [], []⟩

theorem get_place : world.root.get OneMarker.place = some (.dir newDir []) := rfl

def run : Option (Except Err Unit) × World :=
  calm.replay crates (extractLayer crates ⟨blobOf compress [first, second], false⟩ blobDigest .gzip
    (pathOf OneMarker.place)) world

/-- What the archive and its blob compute. -/
structure Computed : Prop where
  wholeSound : Verifies crates.hash [first, second].flatten wholeDigest
  blobSound : Verifies crates.hash blob blobDigest
  apart : second ≠ first
  longer : [first, second].flatten ≠ first
  ok : run.1 = some (.ok ())
  kept : (world.root.put OneMarker.place
    (some (withFile "y" (withFile "x" (.dir newDir []))))).find
      (OneMarker.place ++ [utf8 "y"]) ≠ none
  ordinary : ¬ IsMarker (utf8 "y")
  lost : run.2.root.find (OneMarker.place ++ [utf8 "y"]) = none

theorem computed : Computed := by constructor <;> decide +kernel

theorem blobOf_pieces : blobOf compress [first, second] = blob := by
  have h₁ : compress first = firstMember := if_pos rfl
  have h₂ : compress second = secondMember := if_neg (Computed.apart computed)
  simp [blobOf, blob, h₁, h₂]

theorem untar_first (x : Node) : untar first x = some (withFile "x" x) := if_pos rfl

theorem untar_whole (x : Node) :
    untar [first, second].flatten x = some (withFile "y" (withFile "x" x)) := by
  rw [untar, if_neg (Computed.longer computed), if_pos rfl]

theorem unpack_tar (data : Bytes) (x : Node) :
    crates.unpack .tar ⟨data, false⟩ x = untar data x := rfl

theorem unpack_gzip_eq (data : Bytes) (x : Node) :
    crates.unpack .gzip ⟨data, false⟩ x = if data = blob then untar first x else none := rfl

theorem unpack_gzip (x : Node) :
    crates.unpack .gzip ⟨blobOf compress [first, second], false⟩ x = untar first x := by
  rw [blobOf_pieces, unpack_gzip_eq, if_pos rfl]

theorem enough : ∀ data ∈ [first, [first, second].flatten], ∀ x,
    untar data (.dir newDir []) = some x →
    Enough crates (world.root.put OneMarker.place (some x)) OneMarker.place := by
  have flat {kids : List (Bytes × Node)} (hk : ∀ k ∈ kids, ∃ l, k.2 = .leaf l) :
      Enough crates (world.root.put OneMarker.place (some (.dir newDir kids))) OneMarker.place :=
    ⟨[OneMarker.place], fun e he =>
      List.mem_singleton.mpr (dirUnder_flat (get_put_self get_place _) hk he), by decide⟩
  intro data hdata x hx
  rw [List.mem_cons, List.mem_singleton] at hdata
  rcases hdata with rfl | rfl
  · rw [untar_first] at hx
    cases hx
    exact flat (by simp)
  · rw [untar_whole] at hx
    cases hx
    refine flat fun k hk => ?_
    rcases List.mem_append.mp hk with hk | hk
    · rw [List.mem_singleton.mp hk]
      exact ⟨_, rfl⟩
    · rw [List.mem_singleton.mp (List.mem_of_mem_filter hk)]
      exact ⟨_, rfl⟩

theorem exec_run : Exec (machine crates) (extractLayer crates
    ⟨blobOf compress [first, second], false⟩ blobDigest .gzip (pathOf OneMarker.place)) world
      (some (.ok ())) run.2 := exec_of_fst_eq (calm.exec_replay _ _ _) (Computed.ok computed)

/-- The blob leaves no `y`, the archive does. -/
theorem differs : ¬ ∃ w'', Exec (machine crates)
    (extractLayer crates ⟨[first, second].flatten, false⟩ wholeDigest .tar
      (pathOf OneMarker.place)) world (some (.ok ())) w'' ∧
      w''.root.find = run.2.root.find := by
  rintro ⟨w'', hx, heq⟩
  obtain ⟨m', kids', hu, hl⟩ :=
    (ensures_exec (ensures_extract OneMarker.plain_place get_place) hx).2 () rfl
  rw [unpack_tar, untar_whole] at hu
  rw [← Option.some.inj hu] at hl
  refine hl.kept (e := OneMarker.place) (n := utf8 "y") (Computed.kept computed)
    (Computed.ordinary computed) ?_
  rw [heq]
  exact Computed.lost computed

end CutArchive

theorem pieces_leave_iff_cut : ¬ ConvertsTo CutArchive.world.root OneMarker.place
    (CutArchive.untar CutArchive.first (.dir newDir []))
    (CutArchive.untar [CutArchive.first, CutArchive.second].flatten (.dir newDir [])) := fun h =>
  CutArchive.differs ((pieces_leave_iff OneMarker.plain_place CutArchive.get_place (by decide)
    (CutArchive.unpack_tar _) (fun _ => CutArchive.unpack_gzip)
    (fun h : LayerFormat.gzip = .zstd => by cases h)
    (CutArchive.blobOf_pieces ▸ CutArchive.Computed.blobSound CutArchive.computed)
    (CutArchive.Computed.wholeSound CutArchive.computed)
    CutArchive.enough).mpr (fun _ => h) _ CutArchive.exec_run)

/-- Of an archive cut between two entries, the gzip members leave the first entry only. -/
theorem members_lose_rest :
    ¬ ∀ (env : Env) (untar : Bytes → Node → Option Node) (compress : Bytes → Bytes)
      (format : LayerFormat) (t₁ : Bytes) (ts : List Bytes) (digest digest' : Bytes) (c : Place)
      (m : Meta) (kids : List (Bytes × Node)) (w w' : World), PlainPlace c →
      w.root.get c = some (.dir m kids) → format ≠ .tar →
      (∀ x, env.unpack .tar ⟨(t₁ :: ts).flatten, false⟩ x = untar (t₁ :: ts).flatten x) →
      (format = .gzip →
        ∀ x, env.unpack .gzip ⟨blobOf compress (t₁ :: ts), false⟩ x = untar t₁ x) →
      (format = .zstd →
        ∀ x, env.unpack .zstd ⟨blobOf compress (t₁ :: ts), false⟩ x = untar (t₁ :: ts).flatten x) →
      Verifies env.hash (blobOf compress (t₁ :: ts)) digest →
      Verifies env.hash (t₁ :: ts).flatten digest' →
      (∀ data ∈ [t₁, (t₁ :: ts).flatten], ∀ x, untar data (.dir m kids) = some x →
        Enough env (w.root.put c (some x)) c) →
      Exec (machine env) (extractLayer env ⟨blobOf compress (t₁ :: ts), false⟩ digest format
        (pathOf c)) w (some (.ok ())) w' →
      ∃ w'', Exec (machine env) (extractLayer env ⟨(t₁ :: ts).flatten, false⟩ digest' .tar
        (pathOf c)) w (some (.ok ())) w'' ∧ w''.root.find = w'.root.find := fun h =>
  CutArchive.differs (h _ _ _ _ _ _ _ _ _ _ _ _ _ OneMarker.plain_place CutArchive.get_place
    (by decide) (CutArchive.unpack_tar _) (fun _ => CutArchive.unpack_gzip)
    (fun h : LayerFormat.gzip = .zstd => by cases h)
    (CutArchive.blobOf_pieces ▸ CutArchive.Computed.blobSound CutArchive.computed)
    (CutArchive.Computed.wholeSound CutArchive.computed)
    CutArchive.enough CutArchive.exec_run)

end Pakstak
