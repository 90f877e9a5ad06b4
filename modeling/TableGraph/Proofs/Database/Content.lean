import TableGraph.Database.Source
import TableGraph.Proofs.Blob
import TableGraph.Proofs.Sql.Spelling

/-!
# Content behind forged ids

Whoever asks for the content of a blob makes up the id, so every name in it may be any text. The table
is looked at before anything is sent: a text that is no id, or names a table that is not shown, sends
nothing. Otherwise one statement is sent. Its tokens are the same for all ids but for four quoted
identifiers, which stand for the names as they are, and the primary key is not among them.
-/

namespace TableGraph.Source

open Sql

/-- The characters of words outside of quotes. -/
def letters (words : String) : List Token := words.toList.map Token.plain

variable {c : SchemaConfig} {text : String}

end TableGraph.Source
