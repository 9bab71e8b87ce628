import Lox.CommandLine.Shell
import Lox.Proofs.Runs.Safety

/-! # How a script ends

A script that can be read and decoded is run once, in a fresh session. Its exit status tells what
the diagnostics hold. A script that is not UTF-8 is not run and has no exit status.
-/

namespace Lox

theorem Path.ofString_s : Path.ofString "s" = ⟨false, ["s"], false⟩ := by
  have habsolute : "s".startsWith "/" = false := by decide +kernel
  have hends : ("s".toList.getLast? == some '/') = false := by decide +kernel
  have hsplit : "s".splitOn "/" = ["s"] := by
    rw [String.splitOn, if_neg (by decide), String.splitOnAux, if_neg (by decide +kernel),
      if_neg (by decide +kernel), String.splitOnAux, if_pos (by decide +kernel)]
    decide +kernel
  rw [Path.ofString, habsolute, hends, hsplit]
  rfl

namespace Shell

variable {o : Options} {w w' : World} {path source : String} {bytes : ByteArray}

theorem runScript_of_undecodable {e : Text.DecodeError} (hr : w.files.read path = .ok bytes)
    (hd : Text.decode bytes = .error e) : runScript o w path = (.undecodable e, w) := by
  rw [runScript, hr]
  simp only [hd]

/-- The end of a script by the session that it leaves and the failure of its run. -/
def endOf (d : Diagnostics) : Option Failure → Exit
  | none => exitFor d
  | some f => .failed f

theorem runScript_of_decode (hr : w.files.read path = .ok bytes)
    (hd : Text.decode bytes = .ok source)
    (hw : writeAll o w (.ofSource (Text.unifyNewlines source) limits.nesting) = .ok w') :
    let result := Session.fresh.run limits (Text.unifyNewlines source)
    runScript o w path = (endOf result.1.diagnostics result.2.failure,
      (w'.print result.2.output).printError (Event.texts o.verbose result.2.events)) := by
  rw [runScript, hr]
  simp only [hd, runSource, hw, Session.run]
  generalize
    Session.fresh.runReading limits (.ofSource (Text.unifyNewlines source) limits.nesting) = result
  obtain ⟨s, printed, events, failure⟩ := result
  cases failure <;> rfl

/-- What is wanted besides the run cannot fail if nothing is to be written. -/
theorem writeAll_of_paths (hd : o.dumpPath = "") (hv : o.drawingPath = "") (w : World)
    (r : Reading) : writeAll o w r = .ok (w.print (o.listing.text r)) := by
  rw [writeAll, writeDump, if_pos hd]
  simp only [writeDrawing, hv, if_true]

theorem exitFor_mem (d : Diagnostics) : exitFor d ∈ [Exit.ok, .dataError, .software] := by
  unfold exitFor
  split
  · exact .tail _ (.head _)
  · split
    · exact .tail _ (.tail _ (.head _))
    · exact .head _

/-- Whatever bytes a script has that can be read: if they can be decoded, it ends with a status, or
its run would go on for ever; if they cannot, the program ends there, without a status. -/
theorem runScript_ends (hr : w.files.read path = .ok bytes) :
    (∀ e, Text.decode bytes = .error e → runScript .default w path = (.undecodable e, w)) ∧
      ∀ source, Text.decode bytes = .ok source →
        let outcome := (Session.fresh.run limits (Text.unifyNewlines source)).2
        (outcome.failure = none ∧
          (runScript .default w path).1 ∈ [Exit.ok, .dataError, .software]) ∨
        (outcome.failure = some .outOfRounds ∧
          (runScript .default w path).1 = .failed .outOfRounds) := by
  constructor
  · intro e he
    exact runScript_of_undecodable hr he
  · intro source hs outcome
    have hw := writeAll_of_paths (o := .default) rfl rfl w
      (.ofSource (Text.unifyNewlines source) limits.nesting)
    have hend := congrArg Prod.fst (runScript_of_decode hr hs hw)
    have hsettled := Session.run_settled (s := .fresh) limits (Text.unifyNewlines source)
      (Env.plain_global.mpr nofun)
    rcases hsettled.failure with hf | hf
    · rw [hf] at hend
      exact .inl ⟨hf, hend ▸ exitFor_mem _⟩
    · rw [hf] at hend
      exact .inr ⟨hf, hend⟩

/-- A world with one file, which is called `s`. -/
def worldOf (content : ByteArray) : World := ⟨Files.fresh.place "s" (.file content), "", ""⟩

theorem read_worldOf (content : ByteArray) : (worldOf content).files.read "s" = .ok content := by
  have h : Path.parse "s" = .ok ⟨false, ["s"], false⟩ := by
    rw [Path.parse, if_neg (by decide), if_neg (by decide), if_neg (by decide), Path.ofString_s]
  rw [worldOf, Files.place, Path.ofString_s, Files.read, Files.resolve, h]
  rfl

theorem decode_semicolon : Text.decode ⟨#[0x3b]⟩ = .ok ";" := by
  rw [Text.decode, show (⟨#[0x3b]⟩ : ByteArray).toList = [0x3b] by decide +kernel, Text.decodeFrom]
  show (Text.decodeFrom 1 [';'] []).map String.ofList = _
  rw [Text.decodeFrom]
  rfl

theorem runScript_ends_semicolon :
    (worldOf ⟨#[0x3b]⟩).files.read "s" = .ok ⟨#[0x3b]⟩ ∧ Text.decode ⟨#[0x3b]⟩ = .ok ";" ∧
      ((runScript .default (worldOf ⟨#[0x3b]⟩) "s").1 ∈ [Exit.ok, .dataError, .software] ∨
        (runScript .default (worldOf ⟨#[0x3b]⟩) "s").1 = .failed .outOfRounds) := by
  have hr := read_worldOf ⟨#[0x3b]⟩
  have hends := (runScript_ends hr).2 ";" decode_semicolon
  exact ⟨hr, decode_semicolon, hends.imp And.right And.right⟩

/-- A byte that starts no character is a script without a status. -/
theorem runScript_strayByte :
    (worldOf ⟨#[0xff]⟩).files.read "s" = .ok ⟨#[0xff]⟩ ∧
      ∀ n, (runScript .default (worldOf ⟨#[0xff]⟩) "s").1 ≠ .status n := by
  have hr := read_worldOf ⟨#[0xff]⟩
  have hd : Text.decode ⟨#[0xff]⟩ = .error ⟨0xff, 0, 1, .startByte⟩ := by
    rw [Text.decode, show (⟨#[0xff]⟩ : ByteArray).toList = [0xff] by decide +kernel,
      Text.decodeFrom]
    rfl
  refine ⟨hr, fun n => ?_⟩
  rw [runScript_of_undecodable hr hd]
  exact Exit.noConfusion

end Shell
end Lox
