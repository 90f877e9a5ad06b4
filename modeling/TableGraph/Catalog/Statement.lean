import TableGraph.Config.Basic
import TableGraph.Text.Joined

/-!
# Statements on the catalogue

The statements that read the columns of a database and the annotation rows kept beside them. The
schema of the columns is a parameter of the statement; the annotation tables are named by schema and
common start of their names.
-/

namespace TableGraph.Catalog

/-- An identifier between double quotes, with the quotes inside it doubled. -/
def quoteIdentifier (name : String) : String := Text.delimited '"' name

/-- The statement that lists the columns of all base tables of a schema, with their keys. -/
def columnsStatement : String :=
    "\n" ++
    "        select\n" ++
    "          c.table_name::text as table_name,\n" ++
    "          c.column_name::text as column_name,\n" ++
    "          c.data_type::text as data_type,\n" ++
    "          c.is_nullable = 'YES' as nullable,\n" ++
    "          pk.column_name is not null as is_primary,\n" ++
    "          fk.foreign_table_name,\n" ++
    "          fk.foreign_column_name\n" ++
    "        from information_schema.columns c\n" ++
    "        join information_schema.tables t\n" ++
    "          on t.table_schema = c.table_schema\n" ++
    "         and t.table_name = c.table_name\n" ++
    "         and t.table_type = 'BASE TABLE'\n" ++
    "        left join (\n" ++
    "          select kcu.table_name, kcu.column_name\n" ++
    "          from information_schema.table_constraints tc\n" ++
    "          join information_schema.key_column_usage kcu\n" ++
    "            on tc.constraint_name = kcu.constraint_name\n" ++
    "           and tc.table_schema = kcu.table_schema\n" ++
    "          where tc.constraint_type = 'PRIMARY KEY'\n" ++
    "            and tc.table_schema = $1\n" ++
    "        ) pk\n" ++
    "          on pk.table_name = c.table_name\n" ++
    "         and pk.column_name = c.column_name\n" ++
    "        left join (\n" ++
    "          select distinct on (kcu.table_name, kcu.column_name)\n" ++
    "            kcu.table_name,\n" ++
    "            kcu.column_name,\n" ++
    "            ccu.table_name::text as foreign_table_name,\n" ++
    "            ccu.column_name::text as foreign_column_name\n" ++
    "          from information_schema.table_constraints tc\n" ++
    "          join information_schema.key_column_usage kcu\n" ++
    "            on tc.constraint_name = kcu.constraint_name\n" ++
    "           and tc.table_schema = kcu.table_schema\n" ++
    "          join information_schema.constraint_column_usage ccu\n" ++
    "            on ccu.constraint_name = tc.constraint_name\n" ++
    "           and ccu.table_schema = tc.table_schema\n" ++
    "          where tc.constraint_type = 'FOREIGN KEY'\n" ++
    "            and tc.table_schema = $1\n" ++
    "          order by kcu.table_name, kcu.column_name, tc.constraint_name\n" ++
    "        ) fk\n" ++
    "          on fk.table_name = c.table_name\n" ++
    "         and fk.column_name = c.column_name\n" ++
    "        where c.table_schema = $1\n" ++
    "        order by c.table_name, c.ordinal_position\n" ++
    "        "

/-- The statement that lists the flat annotation rows. -/
def annotationsStatement (config : AnnotationsConfig) : String :=
  let t := fun name =>
    quoteIdentifier config.schema ++ "." ++ quoteIdentifier (config.tablePrefix ++ name)
  "\n" ++
    "        select\n" ++
    "          trim(tables.relation_name)::text as table_name,\n" ++
    "          (trim(tables.relation_name) || '_' || trim(fields.field_name))::text as field_id,\n" ++
    "          trim(replace(entities.name, ',', ''))::text as table_index,\n" ++
    "          trim(replace(attr.name, ',', ''))::text as field_index,\n" ++
    "          ref_type.id::bigint as ref_id,\n" ++
    "          ref_type.description::text as ref_name,\n" ++
    "          trim(replace(ref_type_detail.name, ',', ''))::text as ref_index\n" ++
    "        from " ++ t "table" ++ " tables\n" ++
    "          left join " ++ t "tentities" ++ " entities\n" ++
    "            on entities.table_key = tables.id\n" ++
    "           and trim(replace(entities.name, ',', '')) > ''\n" ++
    "          left join " ++ t "field" ++ " fields\n" ++
    "            on fields.table_key = tables.id\n" ++
    "          left join " ++ t "tentities_attr" ++ " attr\n" ++
    "            on attr.field_key = fields.id\n" ++
    "           and trim(replace(attr.name, ',', '')) > ''\n" ++
    "          left join " ++ t "field_ref" ++ " field_ref\n" ++
    "            on field_ref.field_key = fields.id\n" ++
    "          left join " ++ t "ref_type" ++ " ref_type\n" ++
    "            on ref_type.id = field_ref.ref_type_key\n" ++
    "          left join " ++ t "ref_type_detail" ++ " ref_type_detail\n" ++
    "            on ref_type_detail.ref_type_key = ref_type.id\n" ++
    "           and trim(replace(ref_type_detail.name, ',', '')) > ''\n" ++
    "        "

end TableGraph.Catalog
