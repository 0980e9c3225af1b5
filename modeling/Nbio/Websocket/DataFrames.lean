import Nbio.Websocket.Grammar

/-!
# The frames of a message

`Parse` gives a data frame to the data frame handler as soon as it is there, with the type in
`msgType`.  The first frame of a message sets the field.  It is cleared behind the last one, but
only where there is a message handler: without one, every message has the type of the first message
of the connection.

`frameCalls` says which calls a sequence of frames asks for.
-/

namespace Nbio.Websocket

open Nbio.Go Nbio.Lib List

def Call.isDataFrame : Call → Bool
  | .dataFrame _ _ _ => true
  | _ => false

def dataFrames (log : Log) : Log := log.filter Call.isDataFrame

/-- The calls of `handleDataFrame` that frames ask for: a data frame with a payload is delivered
with the opcode of the first frame of its message, which is `current` inside of one. -/
def frameCalls (o : Options) : Option MessageType → List Bytes → Log
  | _, [] => []
  | current, x :: xs =>
    match completeFrame x with
    | none => []
    | some h =>
      if isControl h.opcode then frameCalls o current xs
      else
        let first := current.getD h.opcode
        (if h.payload ≠ [] ∧ o.dataFrameHandler then [.dataFrame first h.fin h.payload] else []) ++
          frameCalls o (if h.fin then none else some first) xs

/-- The calls made are those that the frames ask for, up to an error if there is one, and behind a
last frame no message is left in the fields. -/
structure TypedFrames (o : Options) (frames : List Bytes) (inMessage : Bool) (r : Result) :
    Prop where
  made : dataFrames r.1 <+: frameCalls o none frames
  all : ∀ c, r.2 = .ok c → dataFrames r.1 = frameCalls o none frames
  boundary : ∀ c, r.2 = .ok c → inMessage = false →
    c.msgType = 0 ∧ c.compress = false ∧ c.expectingFragments = false

/-! ## One frame -/

variable {o : Options} {a : Assembly} {x : Bytes} {h : Head} {inMessage negotiated : Bool}

@[simp] theorem dataFrames_append (log log' : Log) :
    dataFrames (log ++ log') = dataFrames log ++ dataFrames log' :=
  filter_append log log'

@[simp] theorem dataFrames_closeNotice (e : Err) : dataFrames (closeNotice e) = [] := by
  cases e <;> rfl

@[simp] theorem dataFrames_deliverFrame (t : MessageType) (f : Frame) :
    dataFrames (deliverFrame o t f) = deliverFrame o t f := by
  unfold deliverFrame
  split <;> rfl

theorem dataFrames_complete {t : MessageType} {compress : Bool} {m : Bytes} {calls : Log}
    (hok : complete o t compress m = .ok calls) : dataFrames calls = [] := by
  unfold complete at hok
  cases hwhole : wholeMessage o compress (if m = [] then none else some m) with
  | error e => rw [hwhole] at hok; cases hok
  | ok whole =>
    rw [hwhole] at hok
    cases hok
    cases whole <;> rfl

def Assembly.current (a : Assembly) (inMessage : Bool) : Option MessageType :=
  if inMessage then some a.msgType else none

def Assembly.Rested (a : Assembly) : Prop :=
  a.msgType = 0 ∧ a.compress = false ∧ a.expectingFragments = false

def Head.isLast (h : Head) : Bool := !isControl h.opcode && h.fin

theorem typeWith_eq (ha : a.Tracks o inMessage) (hrest : inMessage = false → a.Rested) :
    a.typeWith h = (a.current inMessage).getD h.opcode := by
  unfold Assembly.typeWith Assembly.current
  cases inMessage with
  | true => exact if_neg (ha.set rfl)
  | false => exact if_pos (hrest rfl).1

section

variable (ha : a.Tracks o inMessage) (hlen : a.len < 2 ^ 63) (hpayload : h.payload.length < 2 ^ 63)

include ha hlen hpayload

theorem onDataFrame_calls {r : Assembly × Log} (hok : onDataFrame o a h.toFrame = .ok r) :
    dataFrames r.2 = deliverFrame o (a.typeWith h) h.toFrame ∧
      r.1.current (!h.fin) = if h.fin then none else some (a.typeWith h) := by
  cases hhandler : o.messageHandler with
  | false =>
    rw [onDataFrame_unhandled hhandler] at hok
    cases hok
    refine ⟨dataFrames_deliverFrame _ _, ?_⟩
    cases h.fin <;> rfl
  | true =>
    rw [onDataFrame_eq hhandler ha.buffered (onDataFrame_len hhandler hlen hpayload hok)] at hok
    cases hfin : h.fin with
    | true =>
      rw [hfin] at hok
      cases hcomplete : complete o (a.typeWith h) (a.compressWith h) (a.extended h.payload) with
      | error e => rw [hcomplete] at hok; cases hok
      | ok calls =>
        rw [hcomplete] at hok
        cases hok
        refine ⟨?_, rfl⟩
        rw [dataFrames_append, dataFrames_complete hcomplete, nil_append, dataFrames_deliverFrame]
    | false =>
      rw [hfin] at hok
      cases hok
      exact ⟨dataFrames_deliverFrame _ _, rfl⟩

variable {a' : Assembly} {calls : Log} (hrest : inMessage = false → a.Rested)
  (hlegal : h.illegal negotiated inMessage = false) (hok : h.outcome o a = .ok (a', calls))

include hrest hlegal hok

theorem outcome_calls (hx : completeFrame x = some h) (xs : List Bytes) :
    frameCalls o (a.current inMessage) (x :: xs) =
      dataFrames calls ++ frameCalls o (a'.current (h.inMessage inMessage)) xs := by
  have hon := (outcome_ok hok).2
  rw [frameCalls, hx, Head.inMessage]
  dsimp only
  rcases legal_cases hlegal with hcontrol | ⟨hcontrol, hplace⟩
  · rw [onFrame_control hcontrol] at hon
    cases hon
    rw [if_pos hcontrol, if_pos hcontrol]
    rfl
  · rw [onFrame_data (hplace.imp And.left And.left)] at hon
    obtain ⟨hcalls, hcurrent⟩ := onDataFrame_calls ha hlen hpayload hon
    rw [hcontrol, if_neg Bool.false_ne_true, if_neg Bool.false_ne_true, hcurrent, hcalls,
      typeWith_eq ha hrest]
    rfl

/-- A message handler is what lets the fields rest behind a last frame. -/
theorem outcome_rested (hlast : o.messageHandler = false → h.isLast = false)
    (hout : h.inMessage inMessage = false) : a'.Rested := by
  cases hhandler : o.messageHandler with
  | true =>
    rw [(outcome_tracks ha hlen hpayload hlegal hok).idle hhandler hout]
    exact ⟨rfl, rfl, rfl⟩
  | false =>
    have hlast := hlast hhandler
    unfold Head.isLast at hlast
    unfold Head.inMessage at hout
    cases hcontrol : isControl h.opcode with
    | true =>
      have hon := (outcome_ok hok).2
      rw [onFrame_control hcontrol] at hon
      cases hon
      rw [if_pos hcontrol] at hout
      exact hrest hout
    | false =>
      rw [hcontrol] at hlast hout
      cases hfin : h.fin <;> rw [hfin] at hlast hout <;> contradiction

end

/-! ## Sequences of frames -/

/-- A data message is completed: a last data frame and the frames in front of it are parsed without
an error. -/
def CompletesMessage (o : Options) (frames : List Bytes) : Prop :=
  ∃ front y h, front ++ [y] <+: frames ∧ completeFrame y = some h ∧ h.isLast = true ∧
    ∃ c, (parse o newConn [] (front ++ [y]).flatten).2 = .ok c

theorem run_frameCalls {out : Bool} {xs : List Bytes} {k : Cfg} (hk : (scanner o).Valid k)
    (ha : k.toAssembly.Tracks o inMessage) (hrest : inMessage = false → k.toAssembly.Rested)
    (hfollow : follow negotiated inMessage xs = some out) (hlen : ∀ x ∈ xs, x.length < 2 ^ 63)
    (hlast : o.messageHandler = false → ∀ front y h, front ++ [y] <+: xs →
      completeFrame y = some h → h.isLast = true →
      ∀ r, (scanner o).run k (front ++ [y]).flatten ≠ .ok r) :
    match (scanner o).run k xs.flatten with
    | .ok (k', _) => (out = false → k'.toAssembly.Rested) ∧
        dataFrames k'.log = dataFrames k.log ++ frameCalls o (k.current inMessage) xs
    | .error (log, _) =>
        dataFrames log <+: dataFrames k.log ++ frameCalls o (k.current inMessage) xs := by
  induction xs generalizing k inMessage with
  | nil =>
    cases hfollow
    rw [flatten_nil, Scanner.run_nil]
    exact ⟨hrest, (append_nil _).symm⟩
  | cons x xs ih =>
    obtain ⟨h, hx, hsize, hlegal, hfollow⟩ := follow_cons hfollow
    have hxlen := hlen x mem_cons_self
    rw [flatten_cons]
    rcases run_complete hk hx hsize hxlen with ⟨a', calls, hok, hcons⟩ | ⟨e, -, hstop⟩
    · have hpayload := completeFrame_payload hx
      have hnot : o.messageHandler = false → h.isLast = false := by
        intro hhandler
        by_contra hend
        have hrun := (congrArg ((scanner o).run k) flatten_singleton).trans hcons.run
        exact hlast hhandler [] x h (prefix_append [x] xs) hx (by simpa using hend) _ hrun
      have ha' := outcome_tracks ha hk.lt (by omega) hlegal hok
      have hrest' := outcome_rested ha hk.lt (by omega) hrest hlegal hok hnot
      have hcalls := outcome_calls ha hk.lt (by omega) hrest hlegal hok hx xs
      have := ih (hcons.valid hk) ha' hrest' hfollow (fun y hy => hlen y (mem_cons_of_mem x hy))
        fun hhandler front y h' hfront hy hend r hrun =>
          hlast hhandler (x :: front) y h' ((prefix_cons_inj x).2 hfront) hy hend r
            ((hcons _).trans hrun)
      rw [dataFrames_append, append_assoc, ← hcalls] at this
      rw [hcons]
      exact this
    · rw [hstop]
      dsimp only
      rw [dataFrames_append, dataFrames_closeNotice, append_nil]
      exact prefix_append _ _

theorem dataFrames_mono {log log' : Log} (h : log <+: log') : dataFrames log <+: dataFrames log' :=
  h.filter Call.isDataFrame

theorem typedFrames_of {out : Bool} {frames segs : List Bytes}
    (hend : o.messageHandler = true ∨ ¬ CompletesMessage o frames)
    (hfollow : follow negotiated false frames = some out)
    (hlen : ∀ x ∈ frames, x.length < 2 ^ 63) (hcut : segs.flatten = frames.flatten) :
    TypedFrames o frames out (feed o newConn [] segs) := by
  have hnone : o.messageHandler = false → ∀ front y h, front ++ [y] <+: frames →
      completeFrame y = some h → h.isLast = true →
      ∀ r, (scanner o).run newCfg (front ++ [y]).flatten ≠ .ok r := by
    intro hhandler front y h hfront hy hlast r hrun
    rw [hhandler] at hend
    refine hend.resolve_left Bool.false_ne_true ⟨front, y, h, hfront, hy, hlast, ?_⟩
    rw [parse_newConn, hrun]
    exact ⟨_, rfl⟩
  have hrun := run_frameCalls (newCfg_valid o) (newCfg_tracks o) (fun _ => ⟨rfl, rfl, rfl⟩) hfollow
    hlen hnone
  have hmade : dataFrames (result ((scanner o).run newCfg frames.flatten)).1 <+:
      frameCalls o none frames := by
    cases h : (scanner o).run newCfg frames.flatten with
    | ok r =>
      rw [h] at hrun
      exact hrun.2 ▸ prefix_rfl
    | error e =>
      rw [h] at hrun
      exact hrun
  have hcases := feed_cases (newCfg_valid o) ((scanner o).settled_nil newCfg) segs
  rw [hcut] at hcases
  rcases hcases with hfeed | ⟨log, hfeed, hlog⟩
  · have hfeed : feed o newConn [] segs = result ((scanner o).run newCfg frames.flatten) := hfeed
    rw [hfeed]
    cases h : (scanner o).run newCfg frames.flatten with
    | ok r =>
      rw [h] at hrun hmade
      refine ⟨hmade, fun _ _ => hrun.2, ?_⟩
      intro c hc hout
      cases hc
      exact hrun.1 hout
    | error e =>
      rw [h] at hmade
      exact ⟨hmade, nofun, nofun⟩
  · have hfeed : feed o newConn [] segs = (log, .error .tooLong) := hfeed
    rw [hfeed]
    exact ⟨(dataFrames_mono hlog).trans hmade, nofun, nofun⟩

/-- Without a message handler the type of a message stays behind it. -/
theorem not_typed_of_completes {frames : List Bytes} {out : Bool}
    (hhandler : o.messageHandler = false) (hcomplete : CompletesMessage o frames)
    (hfollow : follow negotiated false frames = some out) (hlen : ∀ x ∈ frames, x.length < 2 ^ 63) :
    ∃ front, front <+: frames ∧ follow negotiated false front = some false ∧
      ¬ TypedFrames o front false (feed o newConn [] [front.flatten]) := by
  obtain ⟨front, y, h, ⟨rest, rfl⟩, hy, hlast, c, hc⟩ := hcomplete
  rw [Head.isLast, Bool.and_eq_true, Bool.not_eq_true'] at hlast
  rw [follow_append, Option.bind_eq_some_iff] at hfollow
  obtain ⟨inMessage', hwhole, -⟩ := hfollow
  have hfollow := hwhole
  rw [follow_append, Option.bind_eq_some_iff] at hfollow
  obtain ⟨inMessage, hfront, hstep⟩ := hfollow
  obtain ⟨h', hy', hsize, hlegal, hout⟩ := follow_cons hstep
  cases hy.symm.trans hy'
  rw [follow, Head.inMessage, hlast.1, hlast.2] at hout
  cases hout
  refine ⟨front ++ [y], prefix_append _ _, hwhole, fun htyped => ?_⟩
  rw [feed, parse_newConn, flatten_append, flatten_singleton] at htyped
  rw [parse_newConn, flatten_append, flatten_singleton] at hc
  cases hrun : (scanner o).run newCfg front.flatten with
  | error e =>
    rw [(scanner o).run_append (newCfg_valid o), hrun] at hc
    cases hc
  | ok r =>
    simp only [mem_append] at hlen
    obtain ⟨ha, hk, hcons⟩ := follow_run (newCfg_valid o) (newCfg_tracks o) hfront
      (fun x hx => hlen x (.inl (.inl hx))) hrun
    have hylen := hlen y (.inl (.inr mem_cons_self))
    rw [hcons] at hc htyped
    rcases run_complete hk hy hsize hylen with ⟨a', calls, hok, hlasty⟩ | ⟨e, -, hstop⟩
    · rw [hlasty.run] at htyped
      have hon := (outcome_ok hok).2
      rcases legal_cases hlegal with hcontrol | ⟨-, hplace⟩
      · cases hlast.1.symm.trans hcontrol
      rw [onFrame_data (hplace.imp And.left And.left), onDataFrame_unhandled hhandler] at hon
      cases hon
      exact ha.typeWith_ne hlegal hlast.1 (htyped.boundary _ rfl rfl).1
    · rw [← append_nil y, hstop] at hc
      cases hc

def emptyText : Head :=
  { fin := true, rsv1 := false, rsv2 := false, rsv3 := false, opcode := textMessage, payload := []
    size := 2 }

theorem emptyText_outcome (hhandler : o.messageHandler = false) :
    emptyText.outcome o .idle = .ok ({ Assembly.idle with msgType := textMessage }, []) := by
  have hzero : wrap64 (Assembly.idle.len + emptyText.payload.length) = 0 := by decide
  have hlarge : ¬ isMessageTooLarge o 0 = true := by
    rw [isMessageTooLarge, Bool.and_eq_true, decide_eq_true_eq, decide_eq_true_eq]
    omega
  have hdata : onFrame o .idle emptyText.toFrame = onDataFrame o .idle emptyText.toFrame :=
    onFrame_data (.inr (.inl rfl))
  rw [Head.outcome, hzero, if_neg hlarge, hdata, onDataFrame_unhandled hhandler]
  rfl

/-- No limit keeps an empty text message from being completed. -/
theorem completes_emptyText (hhandler : o.messageHandler = false) :
    CompletesMessage o [[0x81, 0x00]] := by
  have hframe : completeFrame [0x81, 0x00] = some emptyText := by decide
  rcases run_complete (newCfg_valid o) hframe rfl (by decide) with
    ⟨a, calls, -, hcons⟩ | ⟨e, herr, -⟩
  · refine ⟨[], _, _, prefix_rfl, hframe, rfl, ?_⟩
    rw [parse_newConn, nil_append, flatten_singleton, hcons.run]
    exact ⟨_, rfl⟩
  · cases (emptyText_outcome hhandler).symm.trans herr

/-- For any frames within the rules, in any pieces, each call of `handleDataFrame` has the type of
the message that its frame is part of, with the FIN bit and the payload of the frame, and no message
is left in the fields behind a last frame, exactly where there is a message handler.  Without one
the same holds of frames and of all that they begin with exactly if no data message is completed. -/
theorem data_frames_typed_iff (o : Options) :
    ((∀ (negotiated inMessage : Bool) (frames segs : List Bytes),
      follow negotiated false frames = some inMessage → (∀ x ∈ frames, x.length < 2 ^ 63) →
      segs.flatten = frames.flatten → TypedFrames o frames inMessage (feed o newConn [] segs)) ↔
    o.messageHandler = true) ∧
    ∀ (negotiated out : Bool) (frames : List Bytes),
      follow negotiated false frames = some out → (∀ x ∈ frames, x.length < 2 ^ 63) →
      ((∀ (front segs : List Bytes) (inMessage : Bool), front <+: frames →
        follow negotiated false front = some inMessage → segs.flatten = front.flatten →
        TypedFrames o front inMessage (feed o newConn [] segs)) ↔
      o.messageHandler = true ∨ ¬ CompletesMessage o frames) := by
  refine ⟨⟨fun hall => ?_, fun hhandler _ _ _ _ => typedFrames_of (.inl hhandler)⟩, ?_⟩
  · by_contra hhandler
    have hno := Bool.eq_false_of_not_eq_true hhandler
    have hfollow : follow false false [[0x81, 0x00]] = some false := rfl
    have hlen : ∀ x ∈ [[(0x81 : UInt8), 0x00]], x.length < 2 ^ 63 := by decide
    obtain ⟨front, hfront, hfollow, hnot⟩ :=
      not_typed_of_completes hno (completes_emptyText hno) hfollow hlen
    exact hnot (hall false false front _ hfollow (fun x hx => hlen x (hfront.subset hx))
      flatten_singleton)
  · intro negotiated out frames hfollow hlen
    constructor
    · intro hall
      by_contra hno
      obtain ⟨hhandler, hcomplete⟩ := not_or.1 hno
      obtain ⟨front, hfront, hfollow', hnot⟩ := not_typed_of_completes
        (Bool.eq_false_of_not_eq_true hhandler) (not_not.1 hcomplete) hfollow hlen
      exact hnot (hall front _ false hfront hfollow' flatten_singleton)
    · intro hend front segs inMessage hfront hfollow' hcut
      refine typedFrames_of (hend.imp_right fun hno => ?_) hfollow'
        (fun x hx => hlen x (hfront.subset hx)) hcut
      rintro ⟨front', y, h, hfront', hrest⟩
      exact hno ⟨front', y, h, hfront'.trans hfront, hrest⟩

/-- With a data frame handler only, a text is left in `msgType`, and the binary message behind it is
delivered as a text. -/
theorem binary_delivered_as_text :
    let o : Options := { plainOptions with messageHandler := false }
    let frames : List Bytes := [[0x81, 0x01, 97], [0x82, 0x01, 98]]
    follow false false frames = some false ∧
      frameCalls o none frames =
        [.dataFrame textMessage true [97], .dataFrame binaryMessage true [98]] ∧
      feed o newConn [] frames =
        ([.dataFrame textMessage true [97], .dataFrame textMessage true [98]],
          .ok { newConn with msgType := textMessage }) := by
  decide

end Nbio.Websocket
