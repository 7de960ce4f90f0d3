/-
  Which arguments `uninstall` removes a container for, and nothing else.

  The argument is joined to the directory of the containers and tested to be a directory; it is
  not tested to be the name of a container, as `install` does. `UninstallsOnly` is what an
  uninstall should be: it succeeds for the name of an installed container only, that container
  is gone then, and otherwise nothing changes. `Movable` are the paths that it would move away.

  Proved: `uninstall_only_iff`, an argument that is no name does harm exactly where it leads to a
  directory that can be moved away.
-/
import Pakstak.Updating

namespace Pakstak

open Posix Prog FileTree

variable {env : Env} {S : Place} {x : Node} {p : PathBuf} {w w' : World} {container : Bytes}

/-! ## What can be moved away -/

/-- The path names an entry that can be renamed into `temporary`. -/
def Movable (S : Place) (x : Node) (p : PathBuf) : Prop :=
  ∃ d m s, locate x p = .ok (d, m) ∧ x.get (d ++ [m]) = some s ∧ (p.slash = true → s.isDir) ∧
    ¬ d ++ [m] <+: temporaryPlace S

theorem movable_of_rename {n : Bytes} {y : Node} (hS : PlainPlace S) (hn : Plain n)
    (hT : w.root.DirAt (temporaryPlace S))
    (h : rename w.root p (pathOf (temporaryPlace S ++ [n])) = .ok y) : Movable S w.root p := by
  obtain ⟨d, m, s, hloc, hs, -, -, hoff, -⟩ := placed_of_rename_in hS hn hT h
  obtain ⟨d', m', _, _, s', hloc', -, hs', hslash, -⟩ := rename_eq_ok_iff.mp h
  rw [hloc, Except.ok.injEq, Prod.mk.injEq] at hloc'
  obtain ⟨rfl, rfl⟩ := hloc'
  obtain rfl := Option.some.inj (hs.symm.trans hs')
  exact ⟨d, m, s, hloc, hs, fun h => hslash (.inl h), hoff⟩

theorem Movable.rename (hS : PlainPlace S) (hr : AtRest S w) (hp : ProperPath p)
    (h : Movable S w.root p) : ∃ n y, p.fileName = some n ∧
      Posix.rename w.root p (pathOf (temporaryPlace S ++ [n])) = .ok y ∧
      ¬ AgreeOff (temporaryPlace S) w.root y := by
  obtain ⟨d, m, s, hloc, hs, hslash, hoff⟩ := h
  have hfile := fileName_of_locate hloc
  have hm := plain_of_fileName hp hfile
  -- what is there is not in `temporary`, where nothing is
  have hout : ¬ temporaryPlace S <+: d ++ [m] := by
    rintro ⟨r, hr'⟩
    cases r with
    | nil => exact hoff (by rw [← hr', List.append_nil])
    | cons a r =>
      rw [← hr', show temporaryPlace S ++ a :: r = temporaryPlace S ++ [a] ++ r by simp,
        get_append_of_none (hr.cleared a)] at hs
      cases hs
  have hren : Posix.rename w.root p (pathOf (temporaryPlace S ++ [m])) =
      .ok ((w.root.put (d ++ [m]) none).put (temporaryPlace S ++ [m]) (some s)) := by
    refine rename_eq_ok_iff.mpr ⟨d, m, temporaryPlace S, m, s, hloc,
      locate_child hr.temporary (plain_temporaryPlace hS) hm _, hs, ?_, ?_⟩
    · rintro (h | h)
      · exact hslash h
      · cases h
    · refine renameInto_eq_ok_iff.mpr (.inr ⟨fun h => ?_, fun h => ?_, .inl (hr.cleared m), rfl⟩)
      · rcases List.prefix_concat_iff.mp h with h | h
        · exact hout (h ▸ List.prefix_append _ _)
        · exact hoff h
      · exact hout ((List.prefix_append _ _).trans h)
  refine ⟨m, _, hfile, hren, fun h => ?_⟩
  have hnone : ((w.root.put (d ++ [m]) none).put (temporaryPlace S ++ [m]) (some s)).find
      (d ++ [m]) = none := by
    rw [find_put_off fun h => hout ((List.prefix_append _ _).trans h)]
    exact find_eq_none_iff.mpr (get_put_none _ _ _ [])
  rw [(h (d ++ [m]) hout).1, find_eq_none_iff, hs] at hnone
  cases hnone

/-! ## What an uninstall should be -/

/-- The name of a container that is installed. -/
def Installed (S : Place) (x : Node) (n : Bytes) : Prop :=
  Plain n ∧ ∃ m kids, view S x .containers n = some (.dir m kids)

/-- It succeeds for the name of an installed container only, which is gone then; for another
    string it fails. Nothing else changes (`temporary` apart, where the directory is removed). -/
def UninstallsOnly (env : Env) (S : Place) (w : World) (container : Bytes) : Prop :=
  ∀ r w', Exec (machine env) (uninstall env (storeAt S) container) w (some r) w' →
    (r = .ok () → Installed S w.root container ∧ AgreeOff (temporaryPlace S)
      (w.root.put (entryPlace S .containers container) none) w'.root) ∧
    (¬ Installed S w.root container →
      (∃ e, r = .error e) ∧ AgreeOff (temporaryPlace S) w.root w'.root)

theorem installed_of_isDirPath (hS : PlainPlace S) (hr : AtRest S w) (hn : Plain container)
    (hd : isDirPath w.root ((storeAt S).containerPath container) = true) :
    Installed S w.root container := by
  obtain ⟨c, hw, m, kids, hg⟩ := isDirPath_iff_walk.mp hd
  obtain rfl := walk_container hS hr.layout hn hw
  exact ⟨hn, m, kids, hg⟩

theorem exec_pathIsDir (p : PathBuf) :
    Exec (machine env) (pathIsDir p) w (some (.ok (isDirPath w.root p))) w := by
  refine .ask ⟨.inl rfl, rfl⟩ ?_
  rw [isDirPath]
  cases stat w.root p <;> exact .done _ _

theorem exec_pathExists (p : PathBuf) :
    Exec (machine env) (pathExists p) w (some (.ok (existsPath w.root p))) w := by
  refine .ask ⟨.inl rfl, rfl⟩ ?_
  rw [existsPath]
  cases stat w.root p <;> exact .done _ _

section

variable (hS : PlainPlace S) (hr : AtRest S w)
include hS hr

/-- A move that is refused. -/
theorem ends_moveAndDrop_refused {clear drop : PathBuf → M Unit} {moved : PathBuf → Msg}
    (hp : ProperPath p) (hnot : ¬ Movable S w.root p) :
    Ends (machine env) (fun _ => True) (fun _ _ => False) (fun _ w' => w'.root = w.root)
      (moveAndDrop (storeAt S) clear drop moved p) w := by
  rw [moveAndDrop]
  refine ends_bind (P := fun q w' => w' = w ∧ ∃ n, Plain n ∧ q = pathOf (temporaryPlace S ++ [n]))
    ?_ ?_
  · rw [Storage.temporaryPathFor]
    split
    · rename_i n hn
      have hpl := plain_of_fileName hp hn
      refine ends_ok trivial ⟨rfl, n, hpl, ?_⟩
      rw [temporaryPath_storeAt]
      exact join_plain hpl _
    · exact ends_error trivial rfl
  rintro q w' - ⟨rfl, n, hn, rfl⟩
  have hfree : existsPath w'.root (pathOf (temporaryPlace S ++ [n])) = false :=
    isOk_stat_child hr.temporary (plain_temporaryPlace hS) hn
      (find_eq_none_iff.mpr (hr.cleared n))
  refine ends_bind (P := fun b w₁ => w₁ = w' ∧ b = false)
    (ends_of_noError (noError_pathExists _)
      (ensures_pathExists trivial ⟨rfl, hfree⟩ fun _ => ⟨rfl, rfl⟩)) ?_
  rintro b w₁ - ⟨rfl, rfl⟩
  refine ends_bind (P := fun r w₂ => (∃ e, r = .error e) ∧ w₂ = w₁) (ends_call (ensures_rename
    trivial (fun y hy => absurd (movable_of_rename hS hn hr.temporary hy) hnot)
    fun e _ => ⟨⟨e, rfl⟩, rfl⟩)) ?_
  rintro r w₂ - ⟨⟨e, rfl⟩, rfl⟩
  exact ends_error trivial rfl

theorem ends_uninstall (h : Plain container ∨
    ¬ (isDirPath w.root ((storeAt S).containerPath container) = true ∧
      Movable S w.root ((storeAt S).containerPath container))) :
    Ends (machine env) (fun _ => True)
      (fun _ w' => Installed S w.root container ∧ AgreeOff (temporaryPlace S)
        (w.root.put (entryPlace S .containers container) none) w'.root)
      (fun _ w' => Installed S w.root container ∨ AgreeOff (temporaryPlace S) w.root w'.root)
      (uninstall env (storeAt S) container) w := by
  have hp := properPath_containerPath hS container
  rw [uninstall, Storage.removeContainer]
  refine ends_bind (P := fun _ w' => Installed S w.root container ∧ AgreeOff (temporaryPlace S)
    (w.root.put (entryPlace S .containers container) none) w'.root) (ends_mapError.mpr ?_) ?_
  · refine ends_bind (ends_of_ensures_and
      (ensures_ensureContainerInstalled ⟨trivial, .inr (.refl _ _)⟩)) ?_
    rintro - w' - ⟨rfl, hd⟩
    rw [removeDirectory_eq]
    by_cases hn : Plain container
    · have hin := installed_of_isDirPath hS hr hn hd
      refine ends_of_ensures (ensures_mono (ensures_moveAndDrop hS hp hr.temporary
        (fun a ha => drops_removeDirAllWritable hS ha _ fun _ => trivial)
        (fun a ha => drops_removeDirAllWritable hS ha _ fun _ => trivial)
        (fun _ _ _ => trivial) fun _ _ => trivial) (fun _ h => h) fun _ w₁ _ hrem => ⟨hin, ?_⟩)
        fun _ _ _ => .inl hin
      obtain ⟨⟨w₂, d, m, s, -, -, hw₂, hloc, -, -, hplaced⟩, -⟩ := hrem
      obtain rfl := hw₂ hr.cleared
      obtain ⟨-, m', kids, hv⟩ := hin
      have htable : w₂.root.DirAt (tablePlace S .containers) := dirAt_of_get_append hv (by simp)
      rw [containerPath_storeAt hn, pathOf, entryPlace, locate_child htable (plain_tablePlace hS _)
        hn,
        Except.ok.injEq, Prod.mk.injEq] at hloc
      obtain ⟨rfl, rfl⟩ := hloc
      exact hplaced.agree
    · refine ends_mono (ends_moveAndDrop_refused hS hr hp fun hm => h.elim hn fun h => h ⟨hd, hm⟩)
        (fun _ h => h) (fun _ _ _ h => h.elim) fun _ w₁ _ hroot => .inr ?_
      rw [hroot]
      exact .refl _ _
  · rintro - w₁ - ⟨hin, hagree⟩
    exact ends_of_noError (noError_call _) (ensures_eprintln trivial fun w₂ hs _ =>
      ⟨trivial, hin, by rw [hs.root]; exact hagree⟩)

/-- Where a directory can be moved away, it can be that the uninstall fails right after. -/
theorem exec_uninstall_moved (hfuel : 0 < env.fuel)
    (hd : isDirPath w.root ((storeAt S).containerPath container) = true)
    (hm : Movable S w.root ((storeAt S).containerPath container)) :
    ∃ e w', Exec (machine env) (uninstall env (storeAt S) container) w (some (.error e)) w' ∧
      ¬ AgreeOff (temporaryPlace S) w.root w'.root := by
  have hp := properPath_containerPath hS container
  obtain ⟨n, y, hfile, hren, hag⟩ := hm.rename hS hr hp
  have hn := plain_of_fileName hp hfile
  have hfree : existsPath w.root (pathOf (temporaryPlace S ++ [n])) = false :=
    isOk_stat_child hr.temporary (plain_temporaryPlace hS) hn (find_eq_none_iff.mpr (hr.cleared n))
  have hinstalled : Exec (machine env) ((storeAt S).ensureContainerInstalled container) w
      (some (.ok ())) w := by
    refine exec_bind (exec_pathIsDir _) ?_
    rw [if_pos hd]
    exact .done _ _
  have htemp : Exec (machine env) ((storeAt S).temporaryPathFor
      ((storeAt S).containerPath container)) w
      (some (.ok (pathOf (temporaryPlace S ++ [n])))) w := by
    have hjoin : (pathOf (temporaryPlace S)).join n = pathOf (temporaryPlace S ++ [n]) :=
      join_plain hn _
    rw [Storage.temporaryPathFor, hfile, temporaryPath_storeAt, ← hjoin]
    exact .done _ _
  -- the first question about the directory moved is not answered
  obtain ⟨e, hdrop⟩ : ∃ e, Exec (machine env) (removeDirAllWritable env
      (pathOf (temporaryPlace S ++ [n]))) (w.withRoot y) (some (.error e)) (w.withRoot y) := by
    obtain ⟨fuel, hf⟩ := Nat.exists_eq_succ_of_ne_zero hfuel.ne'
    rw [removeDirAllWritable, makeTreeWritable, hf]
    exact ⟨_, exec_bind_error (exec_bind_error (.ask ⟨.inr ⟨5, rfl⟩, rfl⟩ (.done _ _)))⟩
  have hmove : Exec (machine env) ((storeAt S).removeDirectory env
      ((storeAt S).containerPath container) (utf8 "container")) w
      (some (.error (.context ⟨"failed to remove temporary {} directory {}",
        [utf8 "container", (pathOf (temporaryPlace S ++ [n])).display]⟩ e))) (w.withRoot y) := by
    rw [removeDirectory_eq, moveAndDrop]
    refine exec_bind htemp (exec_bind (exec_pathExists _) ?_)
    rw [hfree]
    exact .ask (.inl ⟨y, hren, rfl, rfl⟩) (exec_mapError_error hdrop)
  exact ⟨_, _, exec_bind_error (exec_mapError_error (exec_bind hinstalled hmove)), hag⟩

end

/-- The argument is the name of a container, or leads to nothing that can be moved away. -/
def Harmless (S : Place) (x : Node) (container : Bytes) : Prop :=
  Plain container ∨ ¬ (isDirPath x ((storeAt S).containerPath container) = true ∧
    Movable S x ((storeAt S).containerPath container))

theorem uninstall_only_iff (hS : PlainPlace S) (hr : AtRest S w) (hfuel : 0 < env.fuel) :
    UninstallsOnly env S w container ↔ Harmless S w.root container := by
  constructor
  · intro h
    by_contra hnot
    obtain ⟨hn, hd, hm⟩ : ¬ Plain container ∧ _ := by
      rw [Harmless, not_or, not_not] at hnot
      exact hnot
    obtain ⟨e, w', hx, hag⟩ := exec_uninstall_moved hS hr hfuel hd hm
    exact hag ((h _ _ hx).2 fun hin => hn hin.1).2
  · intro h r w' hx
    have hend := (wp_exec (ends_uninstall hS hr h) hx).2 r rfl
    cases r with
    | ok u => exact ⟨fun _ => hend, fun hnot => absurd hend.1 hnot⟩
    | error e => exact ⟨by simp, fun hnot => ⟨⟨e, rfl⟩, hend.resolve_left hnot⟩⟩

theorem uninstall_only_iff_web :
    UninstallsOnly OneContainer.oneContainer FirstFetch.place OneContainer.store (utf8 "web") :=
  (uninstall_only_iff FirstFetch.plain_place OneContainer.atRest (by decide)).mpr
    (.inl (by decide +kernel))

namespace NoName

/-- The empty string in the place of a name. -/
def uninstallRun : Option (Except Err Unit) × World :=
  Script.replay OneContainer.oneContainer ⟨fun _ => .error .other, fun _ => false⟩
    (uninstall OneContainer.oneContainer (storeAt FirstFetch.place) []) OneContainer.store

theorem exec_uninstallRun : Exec (machine OneContainer.oneContainer)
    (uninstall OneContainer.oneContainer (storeAt FirstFetch.place) []) OneContainer.store
    uninstallRun.1 uninstallRun.2 := Script.exec_replay _ _ _ _

end NoName

/-- It is joined to the path of the containers, and all of them go. -/
theorem uninstall_empty_name :
    ¬ UninstallsOnly OneContainer.oneContainer FirstFetch.place OneContainer.store [] := by
  intro h
  have hok : NoName.uninstallRun.1 = some (.ok ()) := by decide +kernel
  exact ((h _ _ (exec_of_fst_eq NoName.exec_uninstallRun hok)).1 rfl).1.1.ne_nil rfl

end Pakstak
