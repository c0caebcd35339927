import AfbBinder.WsClient.Model

/-! The request of the client of websockets for the upgrade. -/
namespace AfbBinder.WsClient
open Lib.Cstrings Lib.CrLf
open Lib.Json (ascii)

/-- The bytes of a constant of the source. -/
def literal (s : String) : Bytes := s.toByteArray.data.toList

/-- Each key is followed by what the server must answer. -/
def compkeys : List Bytes := [
  literal "lYKr2sn9+ILcLpkqdrE2VQ==", literal "G5J7ncQnmS/MubIYcqKWM+E6k8I=",
  literal "gjN6eOU/6Yy7dBTJ+EaQSw==", literal "P5QzN7mRt4DeRWxKdG7s4/NCEwk=",
  literal "ziLin6OQ0/a1+cGaI9Mupg==", literal "yvpxcFJAGam6huL77vz34CdShyU=",
  literal "KMfd2bHKah0U5mk2Kg/LIg==", literal "lyYxfDP5YunhkBF+nAWb/w6K4yg=",
  literal "fQ/ISF1mNCPRMyAj3ucqNg==", literal "91YY1EUelb4eMU24Z8WHhJ9cHmc=",
  literal "RHlfiVVE1lM1AJnErI8dFg==", literal "UdZQc0JaihQJV5ETCZ84Av88pxQ=",
  literal "NVy3L2ujXN7v3KEJwK92ww==", literal "+dE7iITxhExjBtf06VYNWChHqx8=",
  literal "cCNAgttlgELfbDDIfhujww==", literal "W2JiswqbTAXx5u84EtjbtqAW2Bg=",
  literal "K+oQvEDWJP+WXzRS5BJDFw==", literal "szgW10a9AuD+HtfS4ylaqWfzWAs=",
  literal "nmg43S4DpVaxye+oQv9KTw==", literal "8XK74jB9xFfTzzl0wTqW04k3tPE=",
  literal "LIqZ23sEppbF4YJR9LQ4/w==", literal "f8lJBQEbR8QmmvPHZpA0smlIeeA=",
  literal "WY1vvvY2j/3V9DAGW3ZZcA==", literal "lROlE4vL4cjU1Vnk6rISc9gVKN0=",
  literal "Ia+dgHnA9QaBrbxuqh4wgQ==", literal "GiGjxFdSaF0EGTl2cjvFsVmJnfM=",
  literal "MfpIVG082jFTV7SxTNNijQ==", literal "f5I2h53hBsT5ES3EHhnxAJ2nqsw=",
  literal "kFumnAw5d/WctG0yAUHPiQ==", literal "aQQmOjoABl7mrbliTPS1bOkndOs=",
  literal "MHiEc+Qc8w/SJ3zMHEM8pA==", literal "FVCxLBmoil3gY0jSX3aNJ6kR/t4="]

/-- The loop of getkeypair, that as many iterations as the number itself end. -/
def foldLoop : Nat → Nat → Nat
  | 0, r => r
  | n + 1, r => if 15 < r then foldLoop n ((r &&& 15) + (r >>> 4)) else r

/-- The key and the answer, from what rand gives. -/
def getkeypair (rand : Nat) : Bytes × Bytes :=
  let r := (foldLoop rand rand &&& 15) <<< 1
  (compkeys.getD r [], compkeys.getD (r + 1) [])

def strjoin (strings : List Bytes) (separ : Bytes) : Bytes :=
  match strings with
  | [] => []
  | s :: strings => strings.foldl (fun iter s => iter ++ separ ++ s) s

/-- The lines of the request, each one ended by a CR and a LF, and an empty one. -/
def makeRequest (path host key protocols : Bytes) : Bytes :=
  headText [ascii "GET " ++ path ++ ascii " HTTP/1.1", ascii "Host: " ++ host, ascii "Upgrade: websocket",
    ascii "Connection: Upgrade", ascii "Sec-WebSocket-Version: 13", ascii "Sec-WebSocket-Key: " ++ key,
    ascii "Sec-WebSocket-Protocol: " ++ protocols, ascii "Content-Length: 0"]

/-- The request that send_request writes. -/
def sendRequest (rand : Nat) (protocols : List Bytes) (path host : Bytes) : Bytes :=
  makeRequest path host (getkeypair rand).1 (strjoin protocols (ascii ", "))

/-- The server reads the request and sends its bytes. -/
def negociate (rand : Nat) (network : Bytes → Server) (stack : Stack) (protocols : List Bytes)
    (path host : Bytes) : Option Answer :=
  receiveResponse (network (sendRequest rand protocols path host)) stack protocols (getkeypair rand).2

private theorem fold_less {r : Nat} (h : 15 < r) : (r &&& 15) + (r >>> 4) < r := by
  have hand : r &&& 15 = r % 16 := Nat.and_two_pow_sub_one_eq_mod r 4
  rw [hand, Nat.shiftRight_eq_div_pow]
  omega

private theorem foldLoop_le (n r : Nat) (h : r ≤ n) : foldLoop n r ≤ 15 := by
  induction n generalizing r with
  | zero => exact Nat.le_trans h (Nat.zero_le 15)
  | succ n ih =>
    rw [foldLoop]
    split
    next hr => exact ih _ (by have := fold_less hr; omega)
    next hr => exact Nat.le_of_not_lt hr

/-- The pair is one of the sixteen of the table. -/
theorem getkeypair_eq (rand : Nat) :
    ∃ i < 16, getkeypair rand = (compkeys.getD (2 * i) [], compkeys.getD (2 * i + 1) []) := by
  have hle := foldLoop_le rand rand (Nat.le_refl rand)
  have hand : foldLoop rand rand &&& 15 = foldLoop rand rand % 16 := Nat.and_two_pow_sub_one_eq_mod _ 4
  refine ⟨foldLoop rand rand, by omega, ?_⟩
  rw [getkeypair, hand, Nat.mod_eq_of_lt (by omega), Nat.shiftLeft_eq, Nat.pow_one, Nat.mul_comm]

end AfbBinder.WsClient
