import SourceBundle.Proofs.Charset
import SourceBundle.Proofs.Plan.Success

/-! # What a sink receives

Writing two texts one after the other leaves a sink as writing their concatenation does, whether or
not it has room for them. So wherever the output is cut, emission is one write and then a flush.
-/
namespace SourceBundle

open Text.Utf8 (Octets)

namespace Sink

variable {sink : Sink} {octets : Octets}

def Fits (sink : Sink) (octets : Octets) : Prop := ∀ room ∈ sink.room, octets.length ≤ room

/-- As many of the octets as there is room for. -/
def accepted (sink : Sink) (octets : Octets) : Octets := sink.room.elim octets (octets.take ·)

theorem accepted_of_fits (h : sink.Fits octets) : sink.accepted octets = octets := by
  unfold accepted
  cases hr : sink.room with
  | none => rfl
  | some room => exact List.take_of_length_le (h room hr)

theorem accepted_mono {more : Octets} (h : octets <+: more) :
    sink.accepted octets <+: sink.accepted more := by
  unfold accepted
  cases sink.room with
  | none => exact h
  | some room => exact h.take room

theorem write_of_fits (h : sink.Fits octets) : (sink.write octets).1 = .ok () := by
  unfold write
  split
  · rfl
  · rename_i room hr
    exact if_pos (h room hr)

theorem write_of_not_fits (h : ¬sink.Fits octets) :
    (sink.write octets).1 = .error sink.overflow := by
  unfold Fits at h
  unfold write
  split
  · rename_i hr
    exact absurd (by simp [hr]) h
  · rename_i room hr
    exact if_neg (by simpa [hr] using h)

/-- A write adds what is accepted and uses up room, and changes nothing else. -/
theorem write_snd (sink : Sink) (octets : Octets) :
    (sink.write octets).2 = { sink with
      room := sink.room.map (· - octets.length)
      received := sink.received ++ sink.accepted octets } := by
  unfold write accepted
  split <;> rename_i hr <;> simp [hr]

theorem write_nil (sink : Sink) : sink.write [] = (.ok (), sink) := by
  obtain ⟨room, overflow, flushFault, received, flushes⟩ := sink
  cases room <;> simp [write]

/-- The second part is written if the first could be. -/
theorem write_append (sink : Sink) (a b : Octets) :
    sink.write (a ++ b) = match sink.write a with
      | (.error fault, t) => (.error fault, t)
      | (.ok (), t) => t.write b := by
  cases hr : sink.room with
  | none => simp [write, hr]
  | some room =>
    by_cases ha : a.length ≤ room
    · have hfit : a.length + b.length ≤ room ↔ b.length ≤ room - a.length := by omega
      simp [write, hr, ha, hfit, List.take_append, List.take_of_length_le ha, Nat.sub_sub]
    · have hlong : ¬a.length + b.length ≤ room := by omega
      have hfull : room - a.length = 0 := by omega
      simp [write, hr, ha, hlong, List.take_append, hfull, ← Nat.sub_sub]

/-- Writes everything at once and flushes after that. -/
def deliver (sink : Sink) (octets : Octets) : Except Fault Unit × Sink :=
  match sink.write octets with
  | (.error fault, t) => (.error fault, t)
  | (.ok (), t) => t.flush

theorem deliver_append (sink : Sink) (a b : Octets) :
    sink.deliver (a ++ b) = match sink.write a with
      | (.error fault, t) => (.error fault, t)
      | (.ok (), t) => t.deliver b := by
  simp only [deliver, write_append]
  rcases sink.write a with ⟨_ | _, t⟩ <;> rfl

/-- What a sink is left with and the answer to the run, when the octets are all that is to be
written. -/
structure Delivered (sink : Sink) (octets : Octets) (result : Except Error Unit) (t : Sink) :
    Prop where
  received : t.received = sink.received ++ sink.accepted octets
  isOk_iff : result = .ok () ↔ sink.Fits octets ∧ sink.flushFault = none
  flushed : sink.Fits octets → t.flushes = sink.flushes ++ [(sink.received ++ octets).length]
  unflushed : ¬sink.Fits octets → t.flushes = sink.flushes
  error : ∀ e, result = .error e → ∃ fault, e = .write fault

theorem delivered_deliver (sink : Sink) (octets : Octets) :
    Delivered sink octets ((sink.deliver octets).1.mapError .write) (sink.deliver octets).2 := by
  have hsnd := write_snd sink octets
  unfold deliver
  by_cases hfit : sink.Fits octets
  · have hw : sink.write octets = (.ok (), (sink.write octets).2) :=
      Prod.ext (write_of_fits hfit) rfl
    rw [hw, hsnd]
    refine ⟨rfl, ?_, ?_, fun hn => absurd hfit hn, ?_⟩
    · cases sink.flushFault <;> simp [flush, hfit, Except.mapError]
    · intro _
      simp [flush, accepted_of_fits hfit]
    · intro e he
      cases hf : sink.flushFault with
      | none => simp [flush, hf, Except.mapError] at he
      | some fault => exact ⟨fault, by simpa [flush, hf, Except.mapError] using he.symm⟩
  · have hw : sink.write octets = (.error sink.overflow, (sink.write octets).2) :=
      Prod.ext (write_of_not_fits hfit) rfl
    rw [hw, hsnd]
    refine ⟨rfl, by simp [hfit, Except.mapError], fun h => absurd h hfit, fun _ => rfl, ?_⟩
    intro e he
    exact ⟨sink.overflow, by simpa [Except.mapError] using he.symm⟩

end Sink

namespace Emission

/-- All that is to be written: for each file a marker line with its name, if the options ask for
one, and its contents. -/
def output (o : Options) (sources : List Source) : List Char :=
  sources.flatMap fun source =>
    (if o.separator then ("\n/*------" ++ source.name ++ "------*/\n").toList else []) ++
      source.contents.getD []

theorem writeTexts_eq_write (charset : Charset) (sink : Sink) (texts : List (List Char)) :
    writeTexts charset sink texts = sink.write (charset.encode texts.flatten) := by
  induction texts generalizing sink with
  | nil => rw [writeTexts, List.flatten_nil, Charset.encode_nil, Sink.write_nil]
  | cons text texts ih =>
    rw [writeTexts, List.flatten_cons, Charset.encode_append, Sink.write_append]
    rcases sink.write (charset.encode text) with ⟨fault | _, t⟩
    · rfl
    · exact ih t

theorem output_cons (o : Options) (source : Source) (sources : List Source) :
    output o (source :: sources) = (texts o source).flatten ++ output o sources := by
  unfold output texts separatorLine
  cases o.separator <;> simp

theorem emit_eq_deliver (o : Options) (sink : Sink) (sources : List Source) :
    (emit o sink sources).result =
        (sink.deliver (o.charset.encode (output o sources))).1.mapError .write ∧
      (emit o sink sources).sink = (sink.deliver (o.charset.encode (output o sources))).2 := by
  induction sources generalizing sink with
  | nil =>
    have hnone : o.charset.encode (output o []) = [] := o.charset.encode_nil
    rw [emit, hnone, Sink.deliver, Sink.write_nil]
    exact ⟨rfl, rfl⟩
  | cons source sources ih =>
    rw [emit, output_cons, Charset.encode_append, Sink.deliver_append, writeTexts_eq_write]
    rcases sink.write (o.charset.encode (texts o source).flatten) with ⟨fault | _, t⟩
    · exact ⟨rfl, rfl⟩
    · exact ih t

theorem delivered_emit (o : Options) (sink : Sink) (sources : List Source) :
    Sink.Delivered sink (o.charset.encode (output o sources)) (emit o sink sources).result
      (emit o sink sources).sink := by
  obtain ⟨hresult, hsink⟩ := emit_eq_deliver o sink sources
  rw [hresult, hsink]
  exact sink.delivered_deliver _

end Emission

namespace Plan

variable {w : Workspace} {o : Options} {starts : List Location} {entries : List String} {p : Plan}

theorem Planned.isRead (h : Planned w o starts p) : ∀ source ∈ p.sources, source.isRead = true := by
  intro source hm
  obtain ⟨id, -, hs⟩ := List.mem_filterMap.mp hm
  obtain ⟨_, _, _, -, -, hcontents, -⟩ := h.complete.faithful source (List.mem_of_getElem? hs)
  rw [Source.isRead, hcontents]
  rfl

theorem delivered_combine (h : (plan w o entries).value = .ok p) (sink : Sink) :
    Sink.Delivered sink (o.charset.encode (Emission.output o p.sources))
      (combine w o entries sink).result (combine w o entries sink).sink := by
  obtain ⟨starts, -, hp⟩ := plan_planned h
  have hemit := Emission.delivered_emit o sink p.sources
  simp only [combine, carryOut, h, writeTo, hp.options]
  exact hemit

/-- A run that cannot be planned does not touch the sink. Any other run gives it the encoded marker
lines and contents of the planned files, as far as it has room for them, and a flush after the last
octet. -/
theorem combine_sink (w : Workspace) (o : Options) (entries : List String) (sink : Sink) :
    (∀ e, (plan w o entries).value = .error e →
      (combine w o entries sink).result = .error e ∧ (combine w o entries sink).sink = sink) ∧
    ∀ p, (plan w o entries).value = .ok p →
      (∀ source ∈ p.sources, source.isRead = true) ∧
      Sink.Delivered sink (o.charset.encode (Emission.output o p.sources))
        (combine w o entries sink).result (combine w o entries sink).sink := by
  refine ⟨fun e h => ?_, fun p h => ?_⟩
  · simp only [combine, carryOut, h, and_self]
  · obtain ⟨starts, -, hp⟩ := plan_planned h
    exact ⟨hp.isRead, delivered_combine h sink⟩

/-! ## Two runs -/

/-- No narrow charset has the name of the first file. -/
def marked : Workspace where
  current := []
  files := ⟨[
    (["λ"], .file (Text.Utf8.encode "/*requires b*/x".toList ++ [0xE9])),
    (["b"], .file (Text.Utf8.encode "y".toList))]⟩

def markedOptions : Options := { charset := .latin1, separator := true }

def markedPlan : Plan where
  discovered := ⟨⟨[⟨["λ"], some ['x', 'é'], [1]⟩, ⟨["b"], some ['y'], []⟩], by decide⟩, [0]⟩
  order := [1, 0]
  options := markedOptions

/-- A sink that takes everything and cannot be flushed. -/
def broken : Sink := { flushFault := some (.refused "disk full") }

theorem plan_marked : (plan marked markedOptions ["λ"]).value = .ok markedPlan := by
  have hentries : Discovery.enterAll marked .empty ["λ"] =
      .ok (⟨[{ location := ["λ"] }], by decide⟩, [0]) := by
    cbv
  have hfirst : (Discovery.visit marked .latin1 ⟨[{ location := ["λ"] }], by decide⟩
      0 { location := ["λ"] }).value =
        .ok (⟨[⟨["λ"], some ['x', 'é'], [1]⟩, { location := ["b"] }], by decide⟩, [1]) := by
    cbv
  have hsecond : (Discovery.visit marked .latin1
      ⟨[⟨["λ"], some ['x', 'é'], [1]⟩, { location := ["b"] }], by decide⟩
      1 { location := ["b"] }).value = .ok (markedPlan.registry, []) := by
    cbv
  have hfound : (discover marked markedOptions.charset ["λ"]).value = .ok markedPlan.discovered :=
    Discovery.discover_of_advances hentries <| .head (.read _ 0 [] _ _ _ _ rfl rfl hfirst) <|
      .single (.read _ 1 [] _ _ _ _ rfl rfl hsecond)
  have harrange : (arrange markedOptions markedPlan.discovered).value = .ok markedPlan := by cbv
  unfold plan Logged.andThen
  rw [hfound]
  exact harrange

/-- A sink with room for two of three octets gets two, and no flush. A sink with room for all of a
run with marker lines gets them in the charset of the run, and the flush that fails comes after
them. -/
theorem letters_sink :
    ((plan Discovery.letters {} ["a"]).value = .ok lettersPlan ∧
      (combine Discovery.letters {} ["a"] { room := some 2 }).sink.received =
        Text.Utf8.encode ['z', 'y'] ∧
      (combine Discovery.letters {} ["a"] { room := some 2 }).sink.flushes = [] ∧
      (combine Discovery.letters {} ["a"] { room := some 2 }).result ≠ .ok ()) ∧
    ((plan marked markedOptions ["λ"]).value = .ok markedPlan ∧
      (combine marked markedOptions ["λ"] broken).sink.received =
        Text.Utf8.encode "\n/*------b------*/\ny\n/*------?------*/\nx".toList ++ [0xE9] ∧
      (combine marked markedOptions ["λ"] broken).sink.flushes = [41] ∧
      (combine marked markedOptions ["λ"] broken).result ≠ .ok ()) := by
  constructor
  · obtain ⟨-, h⟩ := (combine_sink Discovery.letters {} ["a"] { room := some 2 }).2 _ plan_letters
    have hout : Charset.utf8.encode (Emission.output {} lettersPlan.sources) =
        Text.Utf8.encode ['z', 'y', 'x'] := by
      decide
    have hfit : ¬Sink.Fits { room := some 2 } (Text.Utf8.encode ['z', 'y', 'x']) :=
      fun hfits => absurd (hfits 2 rfl) (by decide)
    rw [hout] at h
    exact ⟨plan_letters, h.received, h.unflushed hfit, fun hr => hfit (h.isOk_iff.mp hr).1⟩
  · obtain ⟨-, h⟩ := (combine_sink marked markedOptions ["λ"] broken).2 _ plan_marked
    have hout : markedOptions.charset.encode (Emission.output markedOptions markedPlan.sources) =
        Text.Utf8.encode "\n/*------b------*/\ny\n/*------?------*/\nx".toList ++ [0xE9] := by
      decide +kernel
    have hfit : Sink.Fits broken
        (markedOptions.charset.encode (Emission.output markedOptions markedPlan.sources)) := nofun
    refine ⟨plan_marked, h.received.trans hout, (h.flushed hfit).trans ?_, fun hr => ?_⟩
    · rw [hout]
      decide +kernel
    · cases (h.isOk_iff.mp hr).2

end Plan

end SourceBundle
